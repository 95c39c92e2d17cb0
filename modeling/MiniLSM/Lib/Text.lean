import Mathlib.Data.Nat.Digits.Lemmas
import Mathlib.Data.List.TakeWhile

/-!
# Text

Decimal numerals over bytes, words between separators, and lines read through a buffer of
fixed size.
-/

namespace Text

/-! ## Decimal numerals -/

/-- Whether a byte is one of the ten digits. -/
def isDigit (b : UInt8) : Bool := 48 ≤ b.toNat && b.toNat ≤ 57

/-- The numeral of `n`. -/
def decimal (n : ℕ) : List UInt8 :=
  if n = 0 then [48] else (Nat.digits 10 n).reverse.map fun d => UInt8.ofNat (48 + d)

/-- The number that a string of digits stands for. -/
def value (ds : List UInt8) : ℕ := Nat.ofDigits 10 (ds.reverse.map fun b => b.toNat - 48)

theorem decimal_ne_nil (n : ℕ) : decimal n ≠ [] := by
  unfold decimal
  split
  · simp
  · rename_i h
    simpa using Nat.digits_ne_nil_iff_ne_zero.mpr h

theorem isDigit_of_mem_decimal {n : ℕ} {b : UInt8} (h : b ∈ decimal n) : isDigit b := by
  unfold decimal at h
  split at h
  · simp only [List.mem_singleton] at h
    subst h
    decide
  · obtain ⟨d, hd, rfl⟩ := List.mem_map.1 h
    have := Nat.digits_lt_base (by omega : 1 < 10) (List.mem_reverse.1 hd)
    simp only [isDigit, UInt8.toNat_ofNat', Bool.and_eq_true, decide_eq_true_eq]
    omega

theorem value_decimal (n : ℕ) : value (decimal n) = n := by
  unfold value decimal
  split
  · rename_i h
    simp [h]
  · have hmap : (Nat.digits 10 n).map ((fun b : UInt8 => b.toNat - 48) ∘
        fun d => UInt8.ofNat (48 + d)) = Nat.digits 10 n := by
      rw [List.map_congr_left (g := id) ?_, List.map_id]
      intro d hd
      have := Nat.digits_lt_base (by omega : 1 < 10) hd
      simp only [Function.comp, UInt8.toNat_ofNat', id]
      omega
    rw [← List.map_reverse, List.reverse_reverse, List.map_map, hmap, Nat.ofDigits_digits]

theorem length_decimal_le {n k : ℕ} (hk : 0 < k) (h : n < 10 ^ k) : (decimal n).length ≤ k := by
  unfold decimal
  split
  · exact hk
  · simpa using (Nat.digits_length_le_iff (by omega) n).2 h

/-- Leading zeros do not count. -/
theorem value_zeros (k : ℕ) (ds : List UInt8) : value (List.replicate k 48 ++ ds) = value ds := by
  have hzeros : Nat.ofDigits 10 (List.replicate k 0) = 0 := by
    induction k with
    | zero => rfl
    | succ k ih => rw [List.replicate_succ, Nat.ofDigits_cons, ih]
  unfold value
  rw [List.reverse_append, List.map_append, Nat.ofDigits_append, List.reverse_replicate, List.map_replicate]
  rw [show (48 : UInt8).toNat - 48 = 0 from rfl, hzeros, mul_zero, add_zero]

/-- The numeral of `n` with leading zeros up to a width. -/
def padded (width n : ℕ) : List UInt8 := List.replicate (width - (decimal n).length) 48 ++ decimal n

theorem isDigit_of_mem_padded {width n : ℕ} {b : UInt8} (h : b ∈ padded width n) : isDigit b := by
  rcases List.mem_append.1 h with h | h
  · rw [List.eq_of_mem_replicate h]
    decide
  · exact isDigit_of_mem_decimal h

theorem value_padded (width n : ℕ) : value (padded width n) = n := by
  rw [padded, value_zeros, value_decimal]

theorem length_padded {width : ℕ} (h : 0 < width) (n : ℕ) :
    (padded width n).length = max width (Nat.digits 10 n).length := by
  rw [padded, List.length_append, List.length_replicate, decimal]
  split
  · subst n
    simp only [List.length_singleton, Nat.digits_zero, List.length_nil]
    omega
  · rw [List.length_map, List.length_reverse]
    omega

/-- **Numbers are told apart** by what stands up to the first byte that is no digit. -/
theorem padded_inj {width m n : ℕ} {b : UInt8} (hb : isDigit b = false) {s t : List UInt8}
    (h : padded width m ++ b :: s = padded width n ++ b :: t) : m = n ∧ s = t := by
  have hsplit : ∀ k u, (padded width k ++ b :: u).takeWhile isDigit = padded width k := fun k u => by
    rw [List.takeWhile_append_of_pos fun c hc => isDigit_of_mem_padded hc,
      List.takeWhile_cons_of_neg (by simp [hb]), List.append_nil]
  have hdigits : padded width m = padded width n := by rw [← hsplit m s, h, hsplit]
  have hvalue := congrArg value hdigits
  rw [value_padded, value_padded] at hvalue
  rw [hdigits] at h
  exact ⟨hvalue, (List.cons.inj (List.append_cancel_left h)).2⟩

/-! ## Words -/

section

variable {α : Type} (sep : α → Bool)

/-- The next word of `s` and what is behind it. -/
def nextWord (s : List α) : Option (List α × List α) :=
  match s.dropWhile sep with
  | [] => none
  | a :: s => some (a :: s.takeWhile (!sep ·), s.dropWhile (!sep ·))

variable {sep}

theorem nextWord_sep {a : α} (h : sep a) (s : List α) : nextWord sep (a :: s) = nextWord sep s := by
  simp [nextWord, h]

/-- A word is read up to the separator behind it. -/
theorem nextWord_word {w s : List α} (hne : w ≠ []) (hw : ∀ a ∈ w, sep a = false)
    (hs : ∀ a ∈ s.head?, sep a) : nextWord sep (w ++ s) = some (w, s) := by
  obtain ⟨a, w, rfl⟩ := List.exists_cons_of_ne_nil hne
  have ha : sep a = false := hw a (by simp)
  have ht : s.takeWhile (!sep ·) = [] ∧ s.dropWhile (!sep ·) = s := by
    cases s with
    | nil => simp
    | cons b s => simp [hs b (by simp)]
  have hall : ∀ b ∈ w, (!sep b) = true := fun b hb => by simp [hw b (by simp [hb])]
  simp [nextWord, ha, List.takeWhile_append_of_pos hall, List.dropWhile_append_of_pos hall, ht]

/-- Separators at the end are left alone. -/
theorem nextWord_append {s e : List α} (he : ∀ a ∈ e, sep a) :
    nextWord sep (s ++ e) = (nextWord sep s).map fun p => (p.1, p.2 ++ e) := by
  induction s with
  | nil => simp [nextWord, List.dropWhile_eq_nil_iff.2 he]
  | cons a s ih =>
    cases ha : sep a with
    | true => simpa [nextWord_sep ha] using ih
    | false =>
      have ht : ∀ b ∈ e.head?, sep b := fun b hb => he b (List.mem_of_mem_head? hb)
      have hsplit : a :: (s ++ e) = (a :: s.takeWhile (!sep ·)) ++ (s.dropWhile (!sep ·) ++ e) := by
        simp [← List.append_assoc]
      have hword : ∀ b ∈ a :: s.takeWhile (!sep ·), sep b = false := by
        intro b hb
        rcases List.mem_cons.1 hb with rfl | hb
        · exact ha
        · simpa using List.mem_takeWhile_imp hb
      -- the word ends where it did, at a separator of `s` or at the first of `e`
      have hhead : ∀ b ∈ (s.dropWhile (!sep ·) ++ e).head?, sep b := by
        intro b hb
        cases hd : s.dropWhile (!sep ·) with
        | nil => exact ht b (by simpa [hd] using hb)
        | cons c d =>
          have hc := List.head_dropWhile_not (!sep ·) (l := s) (by simp [hd])
          simp only [hd, List.cons_append, List.head?_cons, Option.mem_def, Option.some.injEq] at hb
          subst hb
          simpa [hd] using hc
      rw [List.cons_append, hsplit, nextWord_word (by simp) hword hhead]
      simp [nextWord, ha]

theorem of_nextWord {s w r : List α} (h : nextWord sep s = some (w, r)) :
    w ≠ [] ∧ ∀ a ∈ w, sep a = false := by
  unfold nextWord at h
  split at h
  · cases h
  · rename_i a d hd
    have ha : sep a = false := by
      simpa [hd] using List.head_dropWhile_not sep (l := s) (by simp [hd])
    simp only [Option.some.injEq, Prod.mk.injEq] at h
    rw [← h.1]
    refine ⟨by simp, fun b hb => ?_⟩
    rcases List.mem_cons.1 hb with rfl | hb
    · exact ha
    · simpa using List.mem_takeWhile_imp hb

end

/-! ## Lines through a buffer -/

section

variable {α : Type} [DecidableEq α] (nl : α) (size : ℕ)

/-- The pieces in which a text is read when each read stops behind `nl` or when `size` elements
are there. `room + 1` elements are left for the first. -/
def pieces : ℕ → List α → List (List α)
  | _, [] => []
  | room, b :: s =>
    if b = nl ∨ room = 0 then [b] :: pieces (size - 1) s
    else
      match pieces (room - 1) s with
      | [] => [[b]]
      | l :: ls => (b :: l) :: ls

variable {nl size}

theorem pieces_ne_nil {room : ℕ} {s : List α} (h : s ≠ []) : pieces nl size room s ≠ [] := by
  cases s with
  | nil => exact absurd rfl h
  | cons b s =>
    unfold pieces
    split
    · simp
    · split <;> simp

theorem mem_of_mem_pieces {room : ℕ} {s l : List α} {a : α} (hl : l ∈ pieces nl size room s)
    (ha : a ∈ l) : a ∈ s := by
  induction s generalizing room l with
  | nil => cases hl
  | cons b s ih =>
    unfold pieces at hl
    split at hl
    · rcases List.mem_cons.1 hl with rfl | hl
      · exact List.mem_cons.2 (.inl (List.mem_singleton.1 ha))
      · exact List.mem_cons_of_mem _ (ih hl ha)
    · split at hl
      · rw [List.mem_singleton] at hl
        subst hl
        exact List.mem_cons.2 (.inl (List.mem_singleton.1 ha))
      · rename_i first rest hrest
        rcases List.mem_cons.1 hl with rfl | hl
        · rcases List.mem_cons.1 ha with rfl | ha
          · exact List.mem_cons_self
          · exact List.mem_cons_of_mem _ (ih (by rw [hrest]; exact List.mem_cons_self) ha)
        · exact List.mem_cons_of_mem _ (ih (by rw [hrest]; exact List.mem_cons_of_mem _ hl) ha)

/-- Behind a newline a new piece begins. -/
theorem pieces_append (room : ℕ) (a b : List α) :
    pieces nl size room (a ++ nl :: b) =
      pieces nl size room (a ++ [nl]) ++ pieces nl size (size - 1) b := by
  induction a generalizing room with
  | nil => simp [pieces]
  | cons c a ih =>
    by_cases hc : c = nl ∨ room = 0
    · simp [pieces, hc, ih]
    · simp only [List.cons_append, pieces, hc, if_false, ih]
      cases h : pieces nl size (room - 1) (a ++ [nl]) with
      | nil => exact absurd h (pieces_ne_nil (by simp))
      | cons l ls => simp

/-- What comes before any newline and fits in the room is at the front of the first piece. -/
theorem pieces_front {room : ℕ} {p s : List α} (hs : s ≠ []) (hp : nl ∉ p) (hroom : p.length ≤ room) :
    ∃ l ls, pieces nl size (room - p.length) s = l :: ls ∧
      pieces nl size room (p ++ s) = (p ++ l) :: ls := by
  -- each element of `p` goes to the front of the first piece and takes one place
  induction p generalizing room with
  | nil =>
    obtain ⟨l, ls, h⟩ := List.exists_cons_of_ne_nil (@pieces_ne_nil _ _ nl size room _ hs)
    exact ⟨l, ls, by simpa using h, by simpa using h⟩
  | cons b p ih =>
    simp only [List.mem_cons, not_or, List.length_cons] at hp hroom
    obtain ⟨l, ls, h, hls⟩ := @ih (room - 1) hp.2 (by omega)
    have hr : room - 1 - p.length = room - (p.length + 1) := by omega
    refine ⟨l, ls, by simpa [hr] using h, ?_⟩
    have hb : ¬(b = nl ∨ room = 0) := by
      rintro (rfl | rfl)
      · exact hp.1 rfl
      · omega
    simp only [List.cons_append, pieces, hb, if_false, hls]

/-- What the first piece holds: the elements up to a newline or the end of the room. -/
theorem pieces_head (room : ℕ) {s : List α} (h : s ≠ []) :
    ∃ e ls, (∀ a ∈ e, a = nl) ∧
      pieces nl size room s = ((s.take (room + 1)).takeWhile (· ≠ nl) ++ e) :: ls := by
  induction s generalizing room with
  | nil => exact absurd rfl h
  | cons b s ih =>
    by_cases hb : b = nl
    · exact ⟨[b], _, by simp [hb], by simp [pieces, hb]; rfl⟩
    · rcases Nat.eq_zero_or_pos room with rfl | hroom
      · exact ⟨[], _, by simp, by simp [pieces, hb]; rfl⟩
      · by_cases hs : s = []
        · exact ⟨[], [], by simp, by simp [pieces, hs, hb, hroom.ne']⟩
        · obtain ⟨e, ls, he, hls⟩ := ih (room - 1) hs
          refine ⟨e, ls, he, ?_⟩
          have hr : room - 1 + 1 = room := by omega
          simp [pieces, hb, hroom.ne', hls, hr]

end

end Text
