import Mathlib.Data.List.Nodup
import Mathlib.Tactic.Common

/-!
# Chains of pointers

`Chain next x ps`: from `x` the pointers of `next` lead through `ps` and then end. The memory
is only seen through `next`, so the results hold for any way to store the nodes.

* `Chain.congr`: a chain only depends on the pointers of its own nodes.
* `Chain.cut`: a chain comes apart at any of its nodes.
* `Chain.splice`: a new node between two neighbours makes the chain longer by it.
-/

/-- From `x` the pointers lead through `ps` and end. -/
def Chain {A : Type*} (next : A → Option A) : A → List A → Prop
  | x, [] => next x = none
  | x, p :: ps => next x = some p ∧ Chain next p ps

namespace Chain

variable {A : Type*} {next next' : A → Option A} {x n : A} {ps qs : List A}

/-- The first pointer of a chain. -/
theorem next_eq (h : Chain next x ps) : next x = ps.head? := by
  cases ps with
  | nil => exact h
  | cons p ps => exact h.1

/-- **A chain only depends on the pointers of its own nodes.** -/
theorem congr (h : Chain next x ps) (hx : next' x = next x) (hps : ∀ p ∈ ps, next' p = next p) :
    Chain next' x ps := by
  induction ps generalizing x with
  | nil => exact hx.trans h
  | cons p ps ih =>
    refine ⟨hx.trans h.1, ih h.2 (hps p List.mem_cons_self) fun q hq => ?_⟩
    exact hps q (List.mem_cons_of_mem _ hq)

/-- **A chain comes apart** behind any of its nodes. -/
theorem cut (h : Chain next x (ps ++ qs)) : Chain next (ps.getLastD x) qs := by
  induction ps generalizing x with
  | nil => exact h
  | cons p ps ih =>
    rw [List.getLastD_cons]
    exact ih h.2

/-- **A new node between two neighbours** of a chain makes it longer by that node. -/
theorem splice (h : Chain next x (ps ++ qs)) (hnd : (x :: (ps ++ qs)).Nodup) (hn : n ∉ x :: (ps ++ qs))
    (hlast : next' (ps.getLastD x) = some n) (hnew : next' n = next (ps.getLastD x))
    (hframe : ∀ p, p ≠ ps.getLastD x → p ≠ n → next' p = next p) :
    Chain next' x (ps ++ n :: qs) := by
  induction ps generalizing x with
  | nil =>
    refine ⟨hlast, ?_⟩
    cases qs with
    | nil => exact hnew.trans h
    | cons q qs =>
      obtain ⟨hq, hrest⟩ := h
      refine ⟨hnew.trans hq, hrest.congr (hframe q ?_ ?_) fun p hp => hframe p ?_ ?_⟩
      · rintro rfl; simp at hnd
      · rintro rfl; simp at hn
      · rintro rfl; simp [hp] at hnd
      · rintro rfl; simp [hp] at hn
  | cons p ps ih =>
    rw [List.getLastD_cons] at hlast hnew hframe
    rw [List.cons_append, List.nodup_cons] at hnd
    rw [List.cons_append, List.mem_cons, not_or] at hn
    have hlastMem : ps.getLastD p ∈ p :: (ps ++ qs) := by
      rw [← List.cons_append]
      exact List.mem_append_left _ List.getLastD_mem_cons
    refine ⟨?_, ih h.2 hnd.2 hn.2 hlast hnew hframe⟩
    rw [hframe x (fun heq => hnd.1 (heq ▸ hlastMem)) (Ne.symm hn.1)]
    exact h.1

end Chain
