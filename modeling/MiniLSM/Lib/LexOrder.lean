import Mathlib.Data.List.Lex
import Mathlib.Data.List.Sort
import Mathlib.Tactic.Common

/-!
# The lexicographic order on lists under appending

How a comparison of two lists is settled when something is appended to both:

* `lt_append_cases`: if `u < k`, then either `k` continues `u`, or `u` stays below `k`
  whatever is appended to the two.
* `append_lt_append_iff`: a common first part plays no role.
* `replicate_bot_le`, `replicate_bot_lt`: a block of bottom elements is below every list
  at least as long.
* `map_lt_map_iff`: a map that turns the order around turns it around for lists of one length.
-/

namespace LexOrder

variable {α : Type*} [LinearOrder α]

/-- **A comparison of two lists is settled inside both of them**, or the greater list
continues the smaller one. -/
theorem lt_append_cases {u k : List α} (h : u < k) :
    (∃ c x, k = u ++ c :: x) ∨ ∀ s t, u ++ s < k ++ t := by
  induction u generalizing k with
  | nil =>
    cases k with
    | nil => exact absurd h (lt_irrefl _)
    | cons c x => exact Or.inl ⟨c, x, rfl⟩
  | cons a u ih =>
    cases k with
    | nil => exact absurd h (by simp)
    | cons b k =>
      rcases List.cons_lt_cons_iff.1 h with hab | ⟨rfl, huk⟩
      · refine Or.inr fun s t => ?_
        exact List.cons_lt_cons_iff.2 (Or.inl hab)
      · rcases ih huk with ⟨c, x, rfl⟩ | hst
        · exact Or.inl ⟨c, x, rfl⟩
        · refine Or.inr fun s t => ?_
          exact List.cons_lt_cons_iff.2 (Or.inr ⟨rfl, hst s t⟩)

theorem append_lt_append_iff (u s t : List α) : u ++ s < u ++ t ↔ s < t := by
  induction u with
  | nil => rfl
  | cons a u ih => simp [ih]

theorem append_le_append_iff (u s t : List α) : u ++ s ≤ u ++ t ↔ s ≤ t := by
  rw [← not_lt, ← not_lt, append_lt_append_iff]

theorem cons_lt_cons_of_lt {a b : α} (h : a < b) (s t : List α) : a :: s < b :: t :=
  List.cons_lt_cons_iff.2 (Or.inl h)

/-! ## Blocks of bottom elements -/

variable {b : α}

theorem replicate_bot_le (hb : ∀ a, b ≤ a) :
    ∀ (n : ℕ) (l : List α), n ≤ l.length → List.replicate n b ≤ l := by
  intro n
  induction n with
  | zero => intro l _; exact not_lt.1 (List.not_lt_nil l)
  | succ n ih =>
    intro l hl
    cases l with
    | nil => simp at hl
    | cons a l =>
      rw [List.replicate_succ]
      rcases lt_or_eq_of_le (hb a) with h | h
      · exact (cons_lt_cons_of_lt h _ _).le
      · subst h
        have := ih l (by simpa using hl)
        exact (append_le_append_iff [b] _ _).2 this

theorem replicate_bot_lt (hb : ∀ a, b ≤ a) {n : ℕ} {l : List α} (h : n < l.length) :
    List.replicate n b < l := by
  rcases lt_or_eq_of_le (replicate_bot_le hb n l h.le) with hlt | heq
  · exact hlt
  · rw [← heq] at h; simp at h

/-! ## Lists under a map that turns the order around -/

/-- **A strictly decreasing map turns around the order** of lists of one length. -/
theorem map_lt_map_iff {β : Type*} [LinearOrder β] {f : α → β} (hf : StrictAnti f) :
    ∀ {s t : List α}, s.length = t.length → (s.map f < t.map f ↔ t < s) := by
  intro s
  induction s with
  | nil =>
    intro t h
    obtain rfl : t = [] := List.length_eq_zero_iff.1 h.symm
    simp
  | cons a s ih =>
    intro t h
    cases t with
    | nil => simp at h
    | cons b t =>
      have hst := ih (t := t) (by simpa using h)
      rw [List.map_cons, List.map_cons, List.cons_lt_cons_iff, List.cons_lt_cons_iff, hf.lt_iff_gt,
        hf.injective.eq_iff, hst, eq_comm (a := a)]

end LexOrder
