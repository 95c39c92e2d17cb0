import MiniLSM.Lib.LexOrder

/-!
# Slices

`Slice` is a pointer and a length over bytes it does not own; the model keeps the bytes
themselves. `Slice::compare` is `memcmp` on the shorter length, then the lengths.
-/

namespace MiniLSM

/-- The bytes a `Slice` or a `std::string` holds. -/
abbrev Bytes := List UInt8

instance instLinearOrderByte : LinearOrder UInt8 where
  le_refl := UInt8.le_refl
  le_trans _ _ _ := UInt8.le_trans
  lt_iff_le_not_ge a b := by
    simp only [UInt8.lt_iff_toNat_lt, UInt8.le_iff_toNat_le]; omega
  le_antisymm _ _ := UInt8.le_antisymm
  le_total := UInt8.le_total
  toDecidableLE := inferInstance

/-- `Slice::compare`. -/
def Slice.compare : Bytes → Bytes → Ordering
  | [], [] => .eq
  | [], _ :: _ => .lt
  | _ :: _, [] => .gt
  | a :: as, b :: bs =>
    if a < b then .lt else if b < a then .gt else Slice.compare as bs

namespace Slice

/-- `Slice::compare` is the lexicographic order of the bytes. -/
theorem compare_spec (a b : Bytes) :
    (compare a b = .lt ↔ a < b) ∧ (compare a b = .eq ↔ a = b) ∧ (compare a b = .gt ↔ b < a) := by
  induction a generalizing b with
  | nil => cases b <;> simp [compare]
  | cons x a ih =>
    cases b with
    | nil => simp [compare]
    | cons y b =>
      obtain ⟨h1, h2, h3⟩ := ih b
      rcases lt_trichotomy x y with h | rfl | h
      · have hlt := LexOrder.cons_lt_cons_of_lt h a b
        simp [compare, h, h.ne, hlt, hlt.le]
      · simp [compare, h1, h2, h3]
      · have hlt := LexOrder.cons_lt_cons_of_lt h b a
        simp [compare, h, h.ne', h.not_gt, hlt, hlt.le]

@[simp] theorem compare_eq_lt {a b : Bytes} : compare a b = .lt ↔ a < b := (compare_spec a b).1

@[simp] theorem compare_eq_eq {a b : Bytes} : compare a b = .eq ↔ a = b := (compare_spec a b).2.1

@[simp] theorem compare_eq_gt {a b : Bytes} : compare a b = .gt ↔ b < a := (compare_spec a b).2.2

end Slice

end MiniLSM
