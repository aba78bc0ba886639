import Mathlib

/-!
# The `k`-th largest element

Sorting a list in descending order and reading position `k` gives the largest
value that more than `k` elements of the list reach. The statement counts
elements, so it does not mention the sorting algorithm.
-/

namespace OrderStatistic

variable {α : Type*} [LinearOrder α]

/-- How many elements of the list are at least `x`. -/
def reaching (l : List α) (x : α) : ℕ := l.countP fun m => decide (x ≤ m)

theorem reaching_perm {l l' : List α} (h : l.Perm l') (x : α) : reaching l x = reaching l' x :=
  h.countP_eq _

/-- Lower values are reached by more elements. -/
theorem reaching_anti (l : List α) {x y : α} (hxy : x ≤ y) : reaching l y ≤ reaching l x := by
  apply List.countP_mono_left
  intro m _ hm
  rw [decide_eq_true_eq] at hm ⊢
  exact hxy.trans hm

/-- In a descending list the elements up to position `k` reach the one at `k`. -/
theorem lt_reaching_of_descending {l : List α} (hl : l.Pairwise (· ≥ ·)) {k : ℕ}
    (hk : k < l.length) {x : α} (hx : x ≤ l[k]) : k < reaching l x := by
  have hall : ∀ m ∈ l.take (k + 1), decide (x ≤ m) = true := by
    intro m hm
    obtain ⟨i, hi, rfl⟩ := List.mem_take_iff_getElem.mp hm
    rw [decide_eq_true_eq]
    rcases Nat.lt_or_ge i k with hik | hki
    · exact hx.trans (List.pairwise_iff_getElem.mp hl i k (by omega) hk hik)
    · obtain rfl : i = k := by omega
      exact hx
  have hprefix : (l.take (k + 1)).countP (fun m => decide (x ≤ m)) = k + 1 := by
    rw [List.countP_eq_length.mpr hall, List.length_take]
    omega
  have hsub := (List.take_sublist (k + 1) l).countP_le (p := fun m => decide (x ≤ m))
  unfold reaching
  omega

/-- In a descending list only the elements before position `k` exceed the one at
`k`. -/
theorem reaching_le_of_descending {l : List α} (hl : l.Pairwise (· ≥ ·)) {k : ℕ}
    (hk : k < l.length) {x : α} (hx : l[k] < x) : reaching l x ≤ k := by
  have hnone : (l.drop k).countP (fun m => decide (x ≤ m)) = 0 := by
    rw [List.countP_eq_zero]
    intro m hm
    obtain ⟨i, hi, rfl⟩ := List.mem_drop_iff_getElem.mp hm
    rw [decide_eq_true_eq, not_le]
    rcases Nat.eq_zero_or_pos i with rfl | hpos
    · simpa using hx
    · exact lt_of_le_of_lt
        (List.pairwise_iff_getElem.mp hl k (k + i) hk (by omega) (by omega)) hx
  have hsplit : reaching l x =
      (l.take k).countP (fun m => decide (x ≤ m)) +
        (l.drop k).countP (fun m => decide (x ≤ m)) := by
    rw [← List.countP_append, List.take_append_drop, reaching]
  have hle : (l.take k).countP (fun m => decide (x ≤ m)) ≤ (l.take k).length :=
    List.countP_le_length
  rw [List.length_take] at hle
  omega

/-- **The `k`-th largest element** is the greatest value that more than `k`
elements reach. -/
theorem exists_isGreatest_insertionSort (l : List α) {k : ℕ} (hk : k < l.length) :
    ∃ x, (l.insertionSort (· ≥ ·))[k]? = some x ∧ IsGreatest {y | k < reaching l y} x := by
  have hsorted : (l.insertionSort (· ≥ ·)).Pairwise (· ≥ ·) :=
    List.pairwise_insertionSort _ l
  have hk' : k < (l.insertionSort (· ≥ ·)).length := by rwa [List.length_insertionSort]
  have hperm := List.perm_insertionSort (· ≥ ·) l
  refine ⟨_, List.getElem?_eq_getElem hk', ?_, ?_⟩
  · rw [Set.mem_ofPred_eq, ← reaching_perm hperm]
    exact lt_reaching_of_descending hsorted hk' le_rfl
  · intro x hx
    rw [Set.mem_ofPred_eq, ← reaching_perm hperm] at hx
    by_contra hlt
    have := reaching_le_of_descending hsorted hk' (not_le.mp hlt)
    omega

/-- An ascending sort is a descending one read from the end. -/
theorem reverse_insertionSort (l : List α) :
    (l.insertionSort (· ≤ ·)).reverse = l.insertionSort (· ≥ ·) := by
  apply List.Perm.eq_of_sortedGE
  · exact List.sortedGE_reverse.mpr List.sortedLE_insertionSort
  · exact List.sortedGE_insertionSort
  · exact ((l.insertionSort (· ≤ ·)).reverse_perm.trans (List.perm_insertionSort _ l)).trans
      (List.perm_insertionSort _ l).symm

/-- Position `k` of the ascending sort holds the greatest value that all but `k`
elements reach. -/
theorem exists_isGreatest_insertionSort_le (l : List α) {k : ℕ} (hk : k < l.length) :
    ∃ x, (l.insertionSort (· ≤ ·))[k]? = some x ∧
      IsGreatest {y | l.length - 1 - k < reaching l y} x := by
  have hk' : l.length - 1 - k < l.length := by omega
  obtain ⟨x, hx, hgreatest⟩ := exists_isGreatest_insertionSort l hk'
  refine ⟨x, ?_, hgreatest⟩
  rw [← reverse_insertionSort, List.getElem?_reverse (by rwa [List.length_insertionSort]),
    List.length_insertionSort] at hx
  rwa [show l.length - 1 - (l.length - 1 - k) = k by omega] at hx

end OrderStatistic
