import Mathlib.Order.Lattice
import Mathlib.Order.Nat
import Mathlib.Tactic.Common

/-!
# Searches

`find?_eq_some_iff`: the first element of a sorted list that is not below a bound.

Two binary searches over a range of indices, for at most `n` halvings:

* `lowerBound below`: the first index that is not `below`, or the right end.
  `lowerBound_eq_iff` says when the search ends at a given index.
* `bisect side`: an index on neither side, where `side i = .lt` sends the search to the left
  of `i` and `.gt` to its right.

Neither looks at more than its predicate, so the results hold for whatever is searched.
-/

namespace Search

/-! ## The first element from a bound on -/

/-- **The first element from `k` on** in a sorted list is the least of those from `k` on. -/
theorem find?_eq_some_iff {α β : Type*} [LinearOrder β] {key : α → β} {l : List α}
    (h : l.Pairwise fun a b => key a < key b) {k : β} {p : α → Bool}
    (hp : ∀ a, p a = true ↔ k ≤ key a) {x : α} :
    l.find? p = some x ↔ x ∈ l ∧ k ≤ key x ∧ ∀ y ∈ l, k ≤ key y → key x ≤ key y := by
  induction l with
  | nil => simp
  | cons a l ih =>
    obtain ⟨ha, hl⟩ := List.pairwise_cons.1 h
    by_cases hak : key a < k
    · rw [List.find?_cons_of_neg (by rw [hp]; exact not_le.2 hak), ih hl]
      constructor
      · rintro ⟨hx, hkx, hmin⟩
        refine ⟨List.mem_cons_of_mem _ hx, hkx, fun y hy hky => ?_⟩
        rcases List.mem_cons.1 hy with rfl | hy
        · exact absurd hak (not_lt.2 hky)
        · exact hmin y hy hky
      · rintro ⟨hx, hkx, hmin⟩
        rcases List.mem_cons.1 hx with rfl | hx
        · exact absurd hak (not_lt.2 hkx)
        · exact ⟨hx, hkx, fun y hy => hmin y (List.mem_cons_of_mem _ hy)⟩
    · have hka := not_lt.1 hak
      rw [List.find?_cons_of_pos ((hp a).2 hka), Option.some.injEq]
      constructor
      · rintro rfl
        refine ⟨List.mem_cons_self, hka, fun y hy _ => ?_⟩
        rcases List.mem_cons.1 hy with rfl | hy
        · exact le_refl _
        · exact (ha y hy).le
      · rintro ⟨hx, -, hmin⟩
        rcases List.mem_cons.1 hx with rfl | hx
        · rfl
        · exact absurd (hmin a List.mem_cons_self hka) (not_le.2 (ha x hx))

/-! ## The lower bound -/

/-- Narrowing `left..right` until one index is left. -/
def lowerBound (below : ℕ → Bool) : ℕ → ℕ → ℕ → ℕ
  | 0, left, _ => left
  | n + 1, left, right =>
    if right ≤ left then left
    else
      let mid := (left + right) / 2
      if below mid then lowerBound below n (mid + 1) right
      else lowerBound below n left mid

variable {below : ℕ → Bool}

/-- The search stays inside the range. -/
theorem lowerBound_mem {n left right : ℕ} (hle : left ≤ right) :
    left ≤ lowerBound below n left right ∧ lowerBound below n left right ≤ right := by
  induction n generalizing left right with
  | zero => exact ⟨le_refl _, hle⟩
  | succ n ih =>
    rw [lowerBound]
    split
    · exact ⟨le_refl _, hle⟩
    · simp only
      split
      · have hr : (left + right) / 2 + 1 ≤ right := by omega
        exact ⟨by have := (ih hr).1; omega, (ih hr).2⟩
      · have hl : left ≤ (left + right) / 2 := by omega
        exact ⟨(ih hl).1, by have := (ih hl).2; omega⟩

/-- The indices that the search looks at on its way to `b`. -/
def probes (b : ℕ) : ℕ → ℕ → ℕ → List ℕ
  | 0, _, _ => []
  | n + 1, left, right =>
    if right ≤ left then []
    else
      let mid := (left + right) / 2
      mid :: if mid < b then probes b n (mid + 1) right else probes b n left mid

theorem mem_probes {b n left right i : ℕ} (h : i ∈ probes b n left right) :
    left ≤ i ∧ i < right := by
  induction n generalizing left right with
  | zero => simp [probes] at h
  | succ n ih =>
    rw [probes] at h
    split at h
    · simp at h
    · simp only at h
      rcases List.mem_cons.1 h with rfl | h
      · omega
      · split at h
        · have := ih h; omega
        · have := ih h; omega

/-- **The search does not pass an index** from which on nothing is below. -/
theorem lowerBound_le {b n left right : ℕ} (hb : left ≤ b)
    (h : ∀ i, b ≤ i → i < right → below i = false) : lowerBound below n left right ≤ b := by
  induction n generalizing left right with
  | zero => exact hb
  | succ n ih =>
    rw [lowerBound]
    split
    · exact hb
    · simp only
      split
      · rename_i hmid
        have hlt : (left + right) / 2 < b := by
          by_contra hge
          rw [h _ (not_lt.1 hge) (by omega)] at hmid
          exact absurd hmid (by decide)
        exact ih hlt h
      · exact ih hb fun i hi hlt => h i hi (by omega)

/-- **Short of its end the search stops where nothing is below.** -/
theorem lowerBound_stops {n left right : ℕ} (hn : right - left ≤ n)
    (h : lowerBound below n left right < right) : below (lowerBound below n left right) = false := by
  induction n generalizing left right with
  | zero => rw [lowerBound] at h; omega
  | succ n ih =>
    rw [lowerBound] at h ⊢
    split at h
    · omega
    · rename_i hlr
      rw [if_neg hlr]
      simp only at h ⊢
      by_cases hmid : below ((left + right) / 2) = true
      · rw [if_pos hmid] at h ⊢
        exact ih (by omega) h
      · rw [if_neg hmid] at h ⊢
        rcases (@lowerBound_mem below n left ((left + right) / 2) (by omega)).2.eq_or_lt with heq | hlt
        · rw [heq]; exact Bool.not_eq_true _ ▸ hmid
        · exact ih (by omega) hlt

/-- **The search ends at `b`** if and only if every index it looks at on the way sends it there. -/
theorem lowerBound_eq_iff {b n left right : ℕ} (hl : left ≤ b) (hr : b ≤ right)
    (hn : right - left ≤ n) : lowerBound below n left right = b ↔
      ∀ i ∈ probes b n left right, (below i = true ↔ i < b) := by
  induction n generalizing left right with
  | zero => simp only [lowerBound, probes, List.not_mem_nil, false_implies, implies_true, iff_true]; omega
  | succ n ih =>
    rw [lowerBound, probes]
    split
    · simp only [List.not_mem_nil, false_implies, implies_true, iff_true]; omega
    · rename_i hlr
      simp only [List.forall_mem_cons]
      by_cases hmid : below ((left + right) / 2) = true
      · rw [if_pos hmid]
        by_cases hb : (left + right) / 2 < b
        · rw [if_pos hb, ih hb hr (by omega)]
          exact ⟨fun h => ⟨iff_of_true hmid hb, h⟩, fun h => h.2⟩
        · refine iff_of_false (fun heq => ?_) fun h => hb (h.1.1 hmid)
          have := (@lowerBound_mem below n ((left + right) / 2 + 1) right (by omega)).1
          omega
      · rw [if_neg hmid]
        by_cases hb : (left + right) / 2 < b
        · refine iff_of_false (fun heq => ?_) fun h => hmid (h.1.2 hb)
          have := (@lowerBound_mem below n left ((left + right) / 2) (by omega)).2
          omega
        · rw [if_neg hb, ih hl (by omega) (by omega)]
          exact ⟨fun h => ⟨iff_of_false hmid hb, h⟩, fun h => h.2⟩

/-! ## Bisection -/

/-- Narrowing the half-open range `left..right` until an index on neither side is hit. -/
def bisect (side : ℕ → Ordering) : ℕ → ℕ → ℕ → Option ℕ
  | 0, _, _ => none
  | n + 1, left, right =>
    if right ≤ left then none
    else
      let mid := (left + (right - 1)) / 2
      match side mid with
      | .lt => bisect side n left mid
      | .gt => bisect side n (mid + 1) right
      | .eq => some mid

variable {side : ℕ → Ordering}

/-- Bisection returns only what it looked for. -/
theorem bisect_eq_some {n left right m : ℕ} (h : bisect side n left right = some m) :
    left ≤ m ∧ m < right ∧ side m = .eq := by
  induction n generalizing left right with
  | zero => simp [bisect] at h
  | succ n ih =>
    rw [bisect] at h
    split at h
    · simp at h
    · simp only at h
      split at h
      · obtain ⟨h1, h2, h3⟩ := ih h
        exact ⟨h1, by omega, h3⟩
      · obtain ⟨h1, h2, h3⟩ := ih h
        exact ⟨by omega, h2, h3⟩
      · rename_i hlr _ heq
        obtain rfl := Option.some.inj h
        exact ⟨by omega, by omega, heq⟩

/-- **Bisection misses nothing**, when the sides are ordered along the range. -/
theorem bisect_eq_none {n left right : ℕ} (hn : right - left ≤ n)
    (hlt : ∀ i j, i ≤ j → j < right → side i = .lt → side j = .lt)
    (hgt : ∀ i j, i ≤ j → j < right → side j = .gt → side i = .gt)
    (h : bisect side n left right = none) {i : ℕ} (hi : left ≤ i) (hir : i < right) :
    side i ≠ .eq := by
  induction n generalizing left right with
  | zero => omega
  | succ n ih =>
    rw [bisect] at h
    split at h
    · omega
    · rename_i hlr
      simp only at h
      split at h
      · rename_i hmid
        rcases lt_or_ge i ((left + (right - 1)) / 2) with him | him
        · exact ih (by omega) (fun i j hij hj => hlt i j hij (by omega))
            (fun i j hij hj => hgt i j hij (by omega)) h hi him
        · rw [hlt _ i him hir hmid]; decide
      · rename_i hmid
        rcases le_or_gt i ((left + (right - 1)) / 2) with him | him
        · rw [hgt i _ him (by omega) hmid]; decide
        · exact ih (by omega) hlt hgt h him hir
      · simp at h

end Search
