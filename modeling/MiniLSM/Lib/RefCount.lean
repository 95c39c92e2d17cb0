import Mathlib.Data.List.Basic
import Mathlib.Logic.Function.Basic
import Mathlib.Tactic.Common
import Mathlib.Algebra.BigOperators.Group.List.Basic
import Mathlib.Algebra.Order.Ring.Int

/-!
# Reference counting

Objects are made with one reference, and freed when their last reference is given back. The
holders are kept as a list beside the counts, an object once for each reference to it.

* `Exact`: each count is the number of holders, and the objects freed are those without one.
* `Exact.make`, `Exact.refs`, `Exact.unrefs`: what keeps counts exact.
* `net`: what a sequence of operations adds up to, and `count_run` what it makes of a count.
-/

namespace RefCount

variable {α : Type*} [DecidableEq α]

/-- The counts, the objects made so far, and those freed, once for each time. -/
structure Counts (α : Type*) where
  count : α → ℤ := fun _ => 0
  made : List α := []
  freed : List α := []

/-- What is done to an object. -/
inductive Op (α : Type*)
  | make (a : α)
  | ref (a : α)
  | unref (a : α)
  deriving DecidableEq

/-- The effect on the counts. The object is freed when its count leaves 1 downwards. -/
def Op.apply (c : Counts α) : Op α → Counts α
  | make a => { c with count := Function.update c.count a 1, made := a :: c.made }
  | ref a => { c with count := Function.update c.count a (c.count a + 1) }
  | unref a =>
    { c with
      count := Function.update c.count a (c.count a - 1)
      freed := if c.count a = 1 then a :: c.freed else c.freed }

/-- A sequence of operations. -/
def Counts.run (c : Counts α) (ops : List (Op α)) : Counts α := ops.foldl Op.apply c

/-- **Exact counts** for a list of holders. -/
structure Exact (c : Counts α) (holders : List α) : Prop where
  count : ∀ a, c.count a = holders.count a
  freed : ∀ a, a ∈ c.freed ↔ a ∈ c.made ∧ a ∉ holders
  made : ∀ a ∈ holders, a ∈ c.made
  once : c.freed.Nodup

namespace Exact

variable {c : Counts α} {hs hs' as : List α} {a : α}

theorem empty : Exact ({} : Counts α) [] :=
  ⟨fun _ => rfl, fun _ => by simp, fun _ h => absurd h List.not_mem_nil, List.nodup_nil⟩

theorem perm (h : Exact c hs) (hp : hs.Perm hs') : Exact c hs' :=
  ⟨fun a => by rw [h.count, hp.count_eq], fun a => by rw [h.freed, hp.mem_iff],
    fun a ha => h.made a (hp.mem_iff.2 ha), h.once⟩

/-- A new object. -/
theorem make (h : Exact c hs) (ha : a ∉ c.made) : Exact (c.run [.make a]) (a :: hs) := by
  have hnot : a ∉ hs := fun hmem => ha (h.made a hmem)
  refine ⟨fun b => ?_, fun b => ?_, fun b hb => ?_, h.once⟩
  · show Function.update c.count a 1 b = _
    by_cases hb : b = a
    · rw [hb, Function.update_self, List.count_cons_self, List.count_eq_zero_of_not_mem hnot]
      rfl
    · rw [Function.update_of_ne hb, List.count_cons_of_ne (Ne.symm hb), h.count]
  · show b ∈ c.freed ↔ b ∈ a :: c.made ∧ b ∉ a :: hs
    rw [h.freed, List.mem_cons, List.mem_cons, not_or]
    by_cases hb : b = a
    · subst hb; simp [ha]
    · simp [hb]
  · exact (List.mem_cons.1 hb).elim (fun he => he ▸ List.mem_cons_self)
      fun hb => List.mem_cons_of_mem _ (h.made b hb)

theorem ref (h : Exact c hs) (ha : a ∈ hs) : Exact (Op.apply c (.ref a)) (a :: hs) := by
  refine ⟨fun b => ?_, fun b => ?_, fun b hb => ?_, h.once⟩
  · show Function.update c.count a (c.count a + 1) b = _
    by_cases hb : b = a
    · rw [hb, Function.update_self, List.count_cons_self, h.count]
      rfl
    · rw [Function.update_of_ne hb, List.count_cons_of_ne (Ne.symm hb), h.count]
  · show b ∈ c.freed ↔ b ∈ c.made ∧ b ∉ a :: hs
    rw [h.freed, List.mem_cons, not_or]
    by_cases hb : b = a
    · subst hb; simp [ha]
    · simp [hb]
  · exact (List.mem_cons.1 hb).elim (fun he => he ▸ h.made a ha) (h.made b)

/-- The last holder to let go frees the object. -/
theorem unref (h : Exact c (a :: hs)) : Exact (Op.apply c (.unref a)) hs := by
  have hcount : c.count a = hs.count a + 1 := by rw [h.count, List.count_cons_self]; rfl
  have hmade : a ∈ c.made := h.made a List.mem_cons_self
  have hnot : a ∉ c.freed := fun hf => ((h.freed a).1 hf).2 List.mem_cons_self
  have hlast : c.count a = 1 ↔ a ∉ hs := by
    rw [hcount, ← List.count_eq_zero]
    omega
  refine ⟨fun b => ?_, fun b => ?_, fun b hb => h.made b (List.mem_cons_of_mem _ hb), ?_⟩
  · show Function.update c.count a (c.count a - 1) b = _
    by_cases hb : b = a
    · rw [hb, Function.update_self, hcount]
      omega
    · rw [Function.update_of_ne hb, h.count, List.count_cons_of_ne (Ne.symm hb)]
  · show (b ∈ if c.count a = 1 then a :: c.freed else c.freed) ↔ b ∈ c.made ∧ b ∉ hs
    by_cases hb : b = a
    · subst hb
      by_cases hl : c.count b = 1
      · rw [if_pos hl]
        exact iff_of_true List.mem_cons_self ⟨hmade, hlast.1 hl⟩
      · rw [if_neg hl]
        exact iff_of_false hnot fun hout => hl (hlast.2 hout.2)
    · have hmem : (b ∈ if c.count a = 1 then a :: c.freed else c.freed) ↔ b ∈ c.freed := by
        split <;> simp [hb]
      rw [hmem, h.freed, List.mem_cons, not_or]
      simp [hb]
  · show (if c.count a = 1 then a :: c.freed else c.freed).Nodup
    split
    · exact List.nodup_cons.2 ⟨hnot, h.once⟩
    · exact h.once

/-- References for objects that are held. -/
theorem refs (h : Exact c hs) (has : ∀ a ∈ as, a ∈ hs) : Exact (c.run (as.map .ref)) (as ++ hs) := by
  induction as generalizing c hs with
  | nil => exact h
  | cons a as ih =>
    have hnext := ih (h.ref (has a List.mem_cons_self)) fun b hb =>
      List.mem_cons_of_mem _ (has b (List.mem_cons_of_mem _ hb))
    exact hnext.perm List.perm_middle

/-- References given back. -/
theorem unrefs (h : Exact c (as ++ hs)) : Exact (c.run (as.map .unref)) hs := by
  induction as generalizing c with
  | nil => exact h
  | cons a as ih => exact ih h.unref

end Exact

/-- Only making an object adds to those made. -/
theorem made_run (c : Counts α) (ops : List (Op α)) (h : ∀ a, .make a ∉ ops) :
    (c.run ops).made = c.made := by
  induction ops generalizing c with
  | nil => rfl
  | cons op ops ih =>
    have hop : (Op.apply c op).made = c.made := by
      cases op with
      | make a => exact absurd List.mem_cons_self (h a)
      | ref a => rfl
      | unref a => rfl
    exact (ih _ fun a ha => h a (List.mem_cons_of_mem _ ha)).trans hop

/-- The counts after references are given back, exact or not. -/
theorem count_unrefs (c : Counts α) (as : List α) (a : α) :
    (c.run (as.map .unref)).count a = c.count a - as.count a := by
  induction as generalizing c with
  | nil => simp [Counts.run]
  | cons b as ih =>
    have hstep : (c.run ((b :: as).map .unref)).count a =
        Function.update c.count b (c.count b - 1) a - as.count a := ih (Op.apply c (.unref b))
    rw [hstep]
    by_cases hb : a = b
    · rw [hb, Function.update_self, List.count_cons_self]
      omega
    · rw [Function.update_of_ne hb, List.count_cons_of_ne (Ne.symm hb)]

/-! ## What a sequence of operations adds up to -/

/-- What an operation adds to the references to an object. -/
def Op.delta (a : α) : Op α → ℤ
  | make b => if b = a then 1 else 0
  | ref b => if b = a then 1 else 0
  | unref b => if b = a then -1 else 0

/-- References taken less references given back. -/
def net (a : α) (ops : List (Op α)) : ℤ := (ops.map (Op.delta a)).sum

@[simp] theorem net_nil (a : α) : net a [] = 0 := rfl

@[simp] theorem net_append (a : α) (ops ops' : List (Op α)) : net a (ops ++ ops') = net a ops + net a ops' := by
  simp [net]

@[simp] theorem net_make (a b : α) : net a [.make b] = [b].count a := by
  by_cases h : b = a <;> simp [net, Op.delta, h]

@[simp] theorem net_refs (a : α) (as : List α) : net a (as.map .ref) = as.count a := by
  induction as with
  | nil => rfl
  | cons b as ih =>
    have hcons : net a ((b :: as).map .ref) = Op.delta a (.ref b) + net a (as.map .ref) := by simp [net]
    rw [hcons, ih, List.count_cons, Op.delta]
    by_cases h : b = a <;> simp [h, add_comm]

@[simp] theorem net_unrefs (a : α) (as : List α) : net a (as.map .unref) = -(as.count a : ℤ) := by
  induction as with
  | nil => rfl
  | cons b as ih =>
    have hcons : net a ((b :: as).map .unref) = Op.delta a (.unref b) + net a (as.map .unref) := by
      simp [net]
    rw [hcons, ih, List.count_cons, Op.delta]
    by_cases h : b = a <;> simp [h]

/-- **The count of an object that was there before** changes by what the operations add up to. -/
theorem count_run (c : Counts α) {a : α} {ops : List (Op α)} (h : .make a ∉ ops) :
    (c.run ops).count a = c.count a + net a ops := by
  induction ops generalizing c with
  | nil => exact (add_zero _).symm
  | cons op ops ih =>
    have hop : (Op.apply c op).count a = c.count a + Op.delta a op := by
      cases op with
      | make b =>
        have hb : b ≠ a := fun heq => h (heq ▸ List.mem_cons_self)
        simp [Op.apply, Op.delta, hb, Function.update_of_ne (Ne.symm hb)]
      | ref b =>
        by_cases hb : b = a
        · subst hb; simp [Op.apply, Op.delta]
        · simp [Op.apply, Op.delta, hb, Function.update_of_ne (Ne.symm hb)]
      | unref b =>
        by_cases hb : b = a
        · subst hb; simp [Op.apply, Op.delta, sub_eq_add_neg]
        · simp [Op.apply, Op.delta, hb, Function.update_of_ne (Ne.symm hb)]
    have hrun : (c.run (op :: ops)).count a = ((Op.apply c op).run ops).count a := rfl
    rw [hrun, ih _ fun hm => h (List.mem_cons_of_mem _ hm), hop]
    simp only [net, List.map_cons, List.sum_cons]
    omega

end RefCount
