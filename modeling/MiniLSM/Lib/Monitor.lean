import Mathlib.Data.List.Nodup

/-!
# Condition variables

The threads blocked in a wait on one condition variable. `notify_one` wakes any one of them,
`notify_all` wakes all, and a thread may wake without having been notified.

* `Justified reason blocked`: every blocked thread has a reason to wait. That no wake-up is lost
  is that this holds throughout, with the negation of what a thread waits for as its reason.
-/

namespace Monitor

variable {T : Type*}

/-- `notify_one`, waking `pick`: `none` where it cannot, which is a thread that is not blocked, or
nobody while some thread is blocked. -/
def notifyOne [DecidableEq T] (blocked : List T) : Option T → Option (List T)
  | none => if blocked = [] then some [] else none
  | some t => if t ∈ blocked then some (blocked.erase t) else none

/-- **Every blocked thread has a reason to wait.** -/
structure Justified (reason : T → Prop) (blocked : List T) : Prop where
  once : blocked.Nodup
  reasons : ∀ t ∈ blocked, reason t

namespace Justified

variable {reason reason' : T → Prop} {blocked : List T} {t : T}

/-- `notify_all`. -/
theorem nil (reason : T → Prop) : Justified reason [] := ⟨List.nodup_nil, by simp⟩

/-- Reasons may change as long as blocked threads keep theirs. -/
theorem mono (h : Justified reason blocked) (hr : ∀ t ∈ blocked, reason t → reason' t) :
    Justified reason' blocked :=
  ⟨h.once, fun t ht => hr t ht (h.reasons t ht)⟩

/-- A thread blocks, for a reason. -/
theorem wait (h : Justified reason blocked) (ht : t ∉ blocked) (hr : reason t) :
    Justified reason (t :: blocked) :=
  ⟨List.nodup_cons.2 ⟨ht, h.once⟩, List.forall_mem_cons.2 ⟨hr, h.reasons⟩⟩

/-- A thread wakes, notified or not. -/
theorem wake [DecidableEq T] (h : Justified reason blocked) (t : T) : Justified reason (blocked.erase t) :=
  ⟨h.once.erase t, fun u hu => h.reasons u (List.mem_of_mem_erase hu)⟩

end Justified

/-- **`notify_one` is enough for a thread that blocks alone.** -/
theorem notifyOne_sole [DecidableEq T] {blocked rest : List T} {pick : Option T} {u : T}
    (hnd : blocked.Nodup) (hsole : ∀ t ∈ blocked, t = u) (h : notifyOne blocked pick = some rest) :
    rest = [] := by
  cases pick with
  | none =>
    simp only [notifyOne] at h
    split at h
    · exact (Option.some.inj h).symm
    · cases h
  | some t =>
    simp only [notifyOne] at h
    split at h
    · rename_i ht
      obtain rfl := Option.some.inj h
      refine List.eq_nil_iff_forall_not_mem.2 fun v hv => ?_
      -- whoever is left is again the only thread, which has just been woken
      have hvt : v = t := (hsole v (List.mem_of_mem_erase hv)).trans (hsole t ht).symm
      exact hnd.not_mem_erase (hvt ▸ hv)
    · cases h

end Monitor
