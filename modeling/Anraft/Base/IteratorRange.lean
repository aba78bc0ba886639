import Mathlib

/-!
# Iterator ranges of a vector

A vector is a list, an iterator its distance from `begin()`. Distances are
integers: pointer arithmetic may step in front of the vector. Reading a range
that is not inside the vector is undefined, which the model records as `none`.
-/

namespace IteratorRange

variable {α : Type*}

/-- `size()`, a `size_t`. -/
def size (v : List α) : UInt64 := UInt64.ofNat v.length

theorem toNat_size (v : List α) (h : v.length < 2 ^ 64) : (size v).toNat = v.length := by
  rw [size, UInt64.toNat_ofNat', Nat.mod_eq_of_lt h]

/-- The elements of `[begin() + first, begin() + last)`. -/
def range? (v : List α) (first last : ℤ) : Option (List α) :=
  if 0 ≤ first ∧ first ≤ last ∧ last ≤ v.length then
    some ((v.drop first.toNat).take (last - first).toNat)
  else none

theorem range?_natCast (v : List α) {m n : ℕ} (hmn : m ≤ n) (hn : n ≤ v.length) :
    range? v m n = some ((v.drop m).take (n - m)) := by
  have hsub : ((n : ℤ) - m).toNat = n - m := by omega
  rw [range?, if_pos ⟨by omega, by omega, by omega⟩, hsub, Int.toNat_natCast]

theorem range?_eq_none (v : List α) (first last : ℤ)
    (h : ¬ (0 ≤ first ∧ first ≤ last ∧ last ≤ v.length)) : range? v first last = none :=
  if_neg h

/-- A range of length one is the element its first iterator points at. -/
theorem range?_succ (v : List α) (n : ℕ) :
    range? v n (n + 1) = v[n]?.map fun x => [x] := by
  by_cases hn : n < v.length
  · have hcast : ((n : ℤ) + 1) = ((n + 1 : ℕ) : ℤ) := by omega
    rw [hcast, range?_natCast v (by omega : n ≤ n + 1) hn, List.getElem?_eq_getElem hn]
    rw [List.drop_eq_getElem_cons hn, Nat.add_sub_cancel_left]
    rfl
  · rw [range?_eq_none v _ _ (by omega), List.getElem?_eq_none (by omega)]
    rfl

/-- A range that is defined has as many elements as there are steps. -/
theorem length_of_range?_eq_some {v out : List α} {first last : ℤ}
    (h : range? v first last = some out) : (out.length : ℤ) = last - first := by
  unfold range? at h
  split at h
  · next hin =>
      obtain rfl := Option.some.inj h
      rw [List.length_take, List.length_drop]
      omega
  · cases h

theorem ne_nil_of_range?_eq_some {v out : List α} {first last : ℤ} (hlt : first < last)
    (h : range? v first last = some out) : out ≠ [] := by
  rintro rfl
  have hlen := length_of_range?_eq_some h
  rw [List.length_nil] at hlen
  omega

end IteratorRange
