import Mathlib.Data.List.Perm.Basic
import Mathlib.Data.List.Nodup
import Mathlib.Order.Nat

/-!
# Numbers handed out by a counter

A counter hands out numbers. A number that has been handed out is pending until something is
made under it, and `used` from then on.

* `Fresh next pending used`: no pending number is in use, and the counter is above them all.
* `Fresh.mono`, `Fresh.take`, `Fresh.fill`, `Fresh.restart`: what may happen to a number.
-/

namespace Counter

/-- **Pending numbers are fresh**: each is pending once, below the counter and not in use. -/
structure Fresh (next : ℕ) (pending : List ℕ) (used : ℕ → Prop) : Prop where
  once : pending.Nodup
  pending_lt : ∀ n ∈ pending, n < next
  used_lt : ∀ n, used n → n < next
  unused : ∀ n ∈ pending, ¬used n

namespace Fresh

variable {next next' n : ℕ} {pending pending' : List ℕ} {used used' : ℕ → Prop}

/-- Fewer pending numbers, fewer numbers in use, and a greater counter. -/
theorem mono (h : Fresh next pending used) (hle : next ≤ next') (hp : pending'.Subperm pending)
    (hu : ∀ m, used' m → used m) : Fresh next' pending' used' := by
  refine ⟨?_, ?_, ?_, ?_⟩
  · obtain ⟨l, hl, hsub⟩ := hp
    exact hl.nodup_iff.1 (h.once.sublist hsub)
  · intro m hm
    exact (h.pending_lt m (hp.subset hm)).trans_le hle
  · intro m hm
    exact (h.used_lt m (hu m hm)).trans_le hle
  · intro m hm hm'
    exact h.unused m (hp.subset hm) (hu m hm')

/-- The counter hands out its number. -/
theorem take (h : Fresh next pending used) : Fresh (next + 1) (next :: pending) used := by
  refine ⟨List.nodup_cons.2 ⟨?_, h.once⟩, ?_, ?_, ?_⟩
  · intro hmem
    exact absurd (h.pending_lt next hmem) (lt_irrefl next)
  · intro m hm
    rcases List.mem_cons.1 hm with rfl | hm
    · exact Nat.lt_succ_self m
    · exact (h.pending_lt m hm).trans (Nat.lt_succ_self next)
  · intro m hm
    exact (h.used_lt m hm).trans (Nat.lt_succ_self next)
  · intro m hm hm'
    rcases List.mem_cons.1 hm with rfl | hm
    · exact absurd (h.used_lt m hm') (lt_irrefl m)
    · exact h.unused m hm hm'

/-- Something is made under a pending number. -/
theorem fill (h : Fresh next (n :: pending) used) : Fresh next pending fun m => used m ∨ m = n := by
  obtain ⟨hn, hnodup⟩ := List.nodup_cons.1 h.once
  refine ⟨hnodup, ?_, ?_, ?_⟩
  · intro m hm
    exact h.pending_lt m (List.mem_cons_of_mem n hm)
  · intro m hm
    rcases hm with hm | rfl
    · exact h.used_lt m hm
    · exact h.pending_lt m List.mem_cons_self
  · intro m hm hm'
    rcases hm' with hm' | rfl
    · exact h.unused m (List.mem_cons_of_mem n hm) hm'
    · exact hn hm

/-- Nothing is pending behind a restart, which may set the counter back as far as the numbers
in use allow. -/
theorem restart (hu : ∀ m, used m → m < next) : Fresh next [] used :=
  ⟨List.nodup_nil, by simp, hu, by simp⟩

end Fresh

end Counter
