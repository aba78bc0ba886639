import Mathlib

/-!
# `uint64_t` as a linear order

Mathlib orders `ℕ` and `ℤ` but not the machine words. The order of `UInt64` is
the order of the values, so the linear order is pulled back along `toNat`;
the operations (`≤`, `<`, `min`, `max`, `compare`) are the ones `UInt64`
already has.
-/

namespace UInt64

instance instLinearOrder : LinearOrder UInt64 where
  le_refl a := UInt64.le_iff_toNat_le.mpr le_rfl
  le_trans a b c hab hbc :=
    UInt64.le_iff_toNat_le.mpr
      ((UInt64.le_iff_toNat_le.mp hab).trans (UInt64.le_iff_toNat_le.mp hbc))
  lt_iff_le_not_ge a b := by
    simp only [UInt64.le_iff_toNat_le, UInt64.lt_iff_toNat_lt]
    omega
  le_antisymm a b hab hba :=
    UInt64.toNat_inj.mp
      (le_antisymm (UInt64.le_iff_toNat_le.mp hab) (UInt64.le_iff_toNat_le.mp hba))
  le_total a b := by
    simp only [UInt64.le_iff_toNat_le]
    exact le_total _ _
  toDecidableLE := inferInstance
  toDecidableEq := inferInstance
  toDecidableLT := inferInstance
  min_def _ _ := rfl
  max_def _ _ := rfl
  compare_eq_compareOfLessAndEq _ _ := rfl

theorem toNat_monotone : Monotone UInt64.toNat := fun _ _ h => UInt64.le_iff_toNat_le.mp h

theorem toNat_add_one_of_lt {a : UInt64} (h : a.toNat + 1 < 2 ^ 64) :
    (a + 1).toNat = a.toNat + 1 := by
  rw [UInt64.toNat_add, UInt64.toNat_one]
  omega

/-- Nothing is above the last word. -/
theorem le_of_toNat_eq_top {a b : UInt64} (h : b.toNat = 2 ^ 64 - 1) : a ≤ b := by
  rw [UInt64.le_iff_toNat_le, h]
  exact Nat.le_sub_one_of_lt a.toNat_lt

/-- Adding one is a step up, except at the top. -/
theorem lt_add_one_of_ne_top {a : UInt64} (h : a.toNat ≠ 2 ^ 64 - 1) : a < a + 1 := by
  have hroom : a.toNat + 1 < 2 ^ 64 := by
    have := a.toNat_lt
    omega
  rw [UInt64.lt_iff_toNat_lt, toNat_add_one_of_lt hroom]
  exact Nat.lt_succ_self _

end UInt64
