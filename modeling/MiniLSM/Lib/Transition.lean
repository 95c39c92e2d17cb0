import Mathlib.Tactic.Common

/-!
# Runs of a partial step function

`Reach step ok s₀ s`: `s` is reached from `s₀` by steps each of which meets `ok`, a condition
on the state before the step and its label.

* `Reach.invariant`: what holds at the start and is kept by every step holds throughout.
* `Reach.invariant_of`: the same, given what is known of all reachable states already.
* `Reach.map`: a run seen through a projection of its states.
* `run`, `reach_of_run`: runs of a given list of labels, with the condition tested at each step.
-/

namespace Transition

variable {S L : Type*} {step : S → L → Option S} {ok ok' : S → L → Prop} {s₀ s s' : S}

/-- The states reached from `s₀` by steps that meet `ok`. -/
inductive Reach (step : S → L → Option S) (ok : S → L → Prop) (s₀ : S) : S → Prop
  | start : Reach step ok s₀ s₀
  | next {s s' : S} {l : L} : Reach step ok s₀ s → ok s l → step s l = some s' →
      Reach step ok s₀ s'

/-- **The invariant rule.** -/
theorem Reach.invariant {I : S → Prop} (h0 : I s₀)
    (hstep : ∀ s l s', I s → ok s l → step s l = some s' → I s') (h : Reach step ok s₀ s) : I s := by
  induction h with
  | start => exact h0
  | next _ hok hs ih => exact hstep _ _ _ ih hok hs

/-- **The invariant rule, given another invariant.** -/
theorem Reach.invariant_of {I J : S → Prop} (hJ : ∀ s, Reach step ok s₀ s → J s) (h0 : I s₀)
    (hstep : ∀ s l s', J s → I s → ok s l → step s l = some s' → I s')
    (h : Reach step ok s₀ s) : I s := by
  induction h with
  | start => exact h0
  | next hr hok hs ih => exact hstep _ _ _ (hJ _ hr) ih hok hs

theorem Reach.mono (hmono : ∀ s l, ok s l → ok' s l) (h : Reach step ok s₀ s) :
    Reach step ok' s₀ s := by
  induction h with
  | start => exact .start
  | next _ hok hs ih => exact .next ih (hmono _ _ hok) hs

theorem Reach.trans {s₁ : S} (h : Reach step ok s₀ s₁) (h' : Reach step ok s₁ s) :
    Reach step ok s₀ s := by
  induction h' with
  | start => exact h
  | next _ hok hs ih => exact .next ih hok hs

/-- **A run seen through a projection**, each of whose steps is a run of another system. -/
theorem Reach.map {T M : Type*} {step' : T → M → Option T} {ok' : T → M → Prop} (f : S → T)
    (hstep : ∀ s l s', ok s l → step s l = some s' → Reach step' ok' (f s) (f s'))
    (h : Reach step ok s₀ s) : Reach step' ok' (f s₀) (f s) := by
  induction h with
  | start => exact .start
  | next _ hok hs ih => exact Reach.trans ih (hstep _ _ _ hok hs)

/-- The state after a list of labels each of which meets `ok` where it is taken. -/
def run (step : S → L → Option S) (ok : S → L → Prop) [∀ s l, Decidable (ok s l)] (s : S)
    (ls : List L) : Option S :=
  ls.foldlM (fun s l => if ok s l then step s l else none) s

theorem run_cons [∀ s l, Decidable (ok s l)] {l : L} {ls : List L} :
    run step ok s (l :: ls) = some s' ↔ ∃ s₁, ok s l ∧ step s l = some s₁ ∧ run step ok s₁ ls = some s' := by
  rw [run, List.foldlM_cons, Option.bind_eq_bind, Option.bind_eq_some_iff]
  refine exists_congr fun s₁ => ?_
  by_cases h : ok s l
  · simp only [h, if_true, true_and]
    rfl
  · simp [h]

theorem reach_of_run [∀ s l, Decidable (ok s l)] {ls : List L}
    (h : run step ok s₀ ls = some s) : Reach step ok s₀ s := by
  induction ls generalizing s₀ with
  | nil =>
    obtain rfl : s₀ = s := Option.some.inj h
    exact .start
  | cons l ls ih =>
    obtain ⟨s₁, hok, hstep, hrest⟩ := run_cons.1 h
    exact Reach.trans (.next .start hok hstep) (ih hrest)

end Transition
