import Mathlib

/-!
# Completions below a commit index

Completions wait under their indexes. A commit moves a counter over the indexes up
to the committed one, one at a time, and what waits at the counter is taken out and
done. As long as completions only come to wait above the counter, they are done in
the order of their indexes, each of them once, and none is passed over.
-/

structure ApplyQueue (α : Type*) where
  committed : ℤ
  applied : ℤ
  pending : ℤ → Option α
  done : List (ℤ × α)

namespace ApplyQueue

variable {α : Type*} {q q' q'' : ApplyQueue α} {i target : ℤ} {a : α}

def register (q : ApplyQueue α) (i : ℤ) (a : α) : ApplyQueue α :=
  { q with pending := Function.update q.pending i (some a) }

def applyNext (q : ApplyQueue α) : ApplyQueue α :=
  { q with
    applied := q.applied + 1
    pending := Function.update q.pending (q.applied + 1) none
    done := q.done ++ (q.pending (q.applied + 1)).toList.map fun a => (q.applied + 1, a) }

def applyUpTo (q : ApplyQueue α) (target : ℤ) : ApplyQueue α :=
  applyNext^[(target - q.applied).toNat] q

def commit (q : ApplyQueue α) (target : ℤ) : ApplyQueue α :=
  { q with committed := target }.applyUpTo target

/-! ## The counter as a loop -/

theorem applyUpTo_of_le (h : target ≤ q.applied) : q.applyUpTo target = q := by
  unfold applyUpTo
  rw [Int.toNat_of_nonpos (by omega), Function.iterate_zero_apply]

theorem applyUpTo_of_lt (h : q.applied < target) :
    q.applyUpTo target = q.applyNext.applyUpTo target := by
  have hrounds : (target - q.applied).toNat = (target - q.applyNext.applied).toNat + 1 := by
    show _ = (target - (q.applied + 1)).toNat + 1
    omega
  unfold applyUpTo
  rw [hrounds, Function.iterate_succ_apply]

/-! ## What passing over indexes does -/

/-- From `q` to `q'` the counter has moved on, and what waited at the indexes it has
passed has been done. -/
structure Passes (q q' : ApplyQueue α) : Prop where
  applied : q.applied ≤ q'.applied
  pending : ∀ i, q'.pending i = if q.applied < i ∧ i ≤ q'.applied then none else q.pending i
  done : q.done <+: q'.done
  mem_done : ∀ x ∈ q'.done, x ∈ q.done ∨ q.pending x.1 = some x.2
  completed : ∀ i a, q.applied < i → i ≤ q'.applied → q.pending i = some a → (i, a) ∈ q'.done

namespace Passes

theorem refl (q : ApplyQueue α) : Passes q q where
  applied := le_rfl
  pending i := by rw [if_neg (by omega)]
  done := List.prefix_rfl
  mem_done _ hx := .inl hx
  completed i _ hlt hle _ := absurd hlt hle.not_gt

theorem trans (h : Passes q q') (h' : Passes q' q'') : Passes q q'' where
  applied := h.applied.trans h'.applied
  pending i := by
    have hle := h.applied
    have hle' := h'.applied
    rw [h'.pending, h.pending]
    by_cases hpassed : q.applied < i ∧ i ≤ q''.applied
    · rw [if_pos hpassed]
      by_cases hearly : i ≤ q'.applied
      · rw [if_neg (by omega), if_pos ⟨hpassed.1, hearly⟩]
      · rw [if_pos (by omega)]
    · rw [if_neg hpassed, if_neg (by omega), if_neg (by omega)]
  done := h.done.trans h'.done
  mem_done x hx := by
    rcases h'.mem_done x hx with hx | hx
    · exact h.mem_done x hx
    · rw [h.pending] at hx
      split at hx
      · cases hx
      · exact .inr hx
  completed i a hlt hle ha := by
    by_cases hearly : i ≤ q'.applied
    · exact h'.done.subset (h.completed i a hlt hearly ha)
    · refine h'.completed i a (not_le.mp hearly) hle ?_
      rw [h.pending, if_neg (by omega), ha]

/-- A completion is not lost: it waits, or it is done. -/
theorem kept (h : Passes q q') (ha : q.pending i = some a) :
    q'.pending i = some a ∨ (i, a) ∈ q'.done := by
  by_cases hpassed : q.applied < i ∧ i ≤ q'.applied
  · exact .inr (h.completed i a hpassed.1 hpassed.2 ha)
  · rw [h.pending, if_neg hpassed]
    exact .inl ha

end Passes

theorem applyNext_passes (q : ApplyQueue α) : Passes q q.applyNext where
  applied := by
    show q.applied ≤ q.applied + 1
    omega
  pending i := by
    show Function.update q.pending (q.applied + 1) none i =
      if q.applied < i ∧ i ≤ q.applied + 1 then none else q.pending i
    by_cases hi : i = q.applied + 1
    · rw [hi, Function.update_self, if_pos (by omega)]
    · rw [Function.update_of_ne hi, if_neg (by omega)]
  done := List.prefix_append _ _
  mem_done x hx := by
    rcases List.mem_append.mp hx with hx | hx
    · exact .inl hx
    · obtain ⟨a, ha, rfl⟩ := List.mem_map.mp hx
      exact .inr (Option.mem_toList.mp ha)
  completed i a hlt hle ha := by
    obtain rfl : i = q.applied + 1 := by
      change i ≤ q.applied + 1 at hle
      omega
    apply List.mem_append_right
    rw [ha]
    exact List.mem_singleton_self _

theorem iterate_applyNext_passes (n : ℕ) (q : ApplyQueue α) : Passes q (applyNext^[n] q) := by
  induction n generalizing q with
  | zero => exact .refl q
  | succ n ih =>
      rw [Function.iterate_succ_apply]
      exact (applyNext_passes q).trans (ih q.applyNext)

theorem iterate_applyNext_indexes (n : ℕ) (q : ApplyQueue α) :
    (applyNext^[n] q).applied = q.applied + n ∧ (applyNext^[n] q).committed = q.committed := by
  induction n generalizing q with
  | zero => exact ⟨(Int.add_zero _).symm, rfl⟩
  | succ n ih =>
      obtain ⟨happlied, hcommitted⟩ := ih q.applyNext
      rw [Function.iterate_succ_apply]
      refine ⟨happlied.trans ?_, hcommitted⟩
      show q.applied + 1 + (n : ℤ) = q.applied + ((n + 1 : ℕ) : ℤ)
      push_cast
      ring

theorem commit_passes (q : ApplyQueue α) (target : ℤ) : Passes q (q.commit target) := by
  obtain ⟨happlied, hpending, hdone, hmem, hcompleted⟩ :=
    iterate_applyNext_passes (target - q.applied).toNat { q with committed := target }
  exact ⟨happlied, hpending, hdone, hmem, hcompleted⟩

theorem commit_committed (q : ApplyQueue α) (target : ℤ) : (q.commit target).committed = target :=
  (iterate_applyNext_indexes _ _).2

theorem commit_applied (h : q.applied ≤ target) : (q.commit target).applied = target := by
  refine (iterate_applyNext_indexes _ _).1.trans ?_
  show q.applied + ((target - q.applied).toNat : ℤ) = target
  rw [Int.toNat_of_nonneg (sub_nonneg.mpr h), add_sub_cancel]

/-! ## Order -/

/-- The invariant: what is done lies at or below the counter, in the order of the
indexes, what waits lies above it, and the counter has not passed the commit. -/
structure Ordered (q : ApplyQueue α) : Prop where
  increasing : (q.done.map Prod.fst).Pairwise (· < ·)
  done_le : ∀ x ∈ q.done, x.1 ≤ q.applied
  lt_pending : ∀ i, q.pending i ≠ none → q.applied < i
  applied_le : q.applied ≤ q.committed

namespace Ordered

theorem register (h : q.Ordered) (hi : q.applied < i) (a : α) : (q.register i a).Ordered where
  increasing := h.increasing
  done_le := h.done_le
  lt_pending j hj := by
    change Function.update q.pending i (some a) j ≠ none at hj
    by_cases hji : j = i
    · rw [hji]
      exact hi
    · rw [Function.update_of_ne hji] at hj
      exact h.lt_pending j hj
  applied_le := h.applied_le

theorem applyNext (h : q.Ordered) (hlt : q.applied < q.committed) : q.applyNext.Ordered where
  increasing := by
    show ((q.done ++ _).map Prod.fst).Pairwise (· < ·)
    rw [List.map_append, List.pairwise_append]
    refine ⟨h.increasing, ?_, ?_⟩
    · cases q.pending (q.applied + 1) <;> simp
    · intro i hi j hj
      obtain ⟨x, hx, rfl⟩ := List.mem_map.mp hi
      obtain rfl : j = q.applied + 1 := by
        obtain ⟨y, hy, rfl⟩ := List.mem_map.mp hj
        obtain ⟨a, -, rfl⟩ := List.mem_map.mp hy
        rfl
      exact Int.lt_add_one_of_le (h.done_le x hx)
  done_le x hx := by
    show x.1 ≤ q.applied + 1
    rcases List.mem_append.mp hx with hx | hx
    · exact (h.done_le x hx).trans (Int.le_add_one le_rfl)
    · obtain ⟨a, -, rfl⟩ := List.mem_map.mp hx
      exact le_rfl
  lt_pending i hi := by
    rw [(applyNext_passes q).pending] at hi
    split at hi
    · exact absurd rfl hi
    · next hpassed =>
        have hlt := h.lt_pending i hi
        exact not_le.mp fun hle => hpassed ⟨hlt, hle⟩
  applied_le := hlt

theorem iterate_applyNext (h : q.Ordered) {n : ℕ} (hn : q.applied + n ≤ q.committed) :
    (ApplyQueue.applyNext^[n] q).Ordered := by
  induction n generalizing q with
  | zero => exact h
  | succ n ih =>
      rw [Function.iterate_succ_apply]
      push_cast at hn
      apply ih (h.applyNext (by omega))
      show q.applied + 1 + (n : ℤ) ≤ q.committed
      omega

/-- **A commit keeps the order.** -/
theorem commit (h : q.Ordered) (htarget : q.committed ≤ target) : (q.commit target).Ordered := by
  have happlied := h.applied_le.trans htarget
  have hraised : ({ q with committed := target } : ApplyQueue α).Ordered :=
    ⟨h.increasing, h.done_le, h.lt_pending, happlied⟩
  apply hraised.iterate_applyNext
  show q.applied + ((target - q.applied).toNat : ℤ) ≤ target
  rw [Int.toNat_of_nonneg (sub_nonneg.mpr happlied), add_sub_cancel]

/-- What a commit leaves waits above the commit. -/
theorem commit_lt_pending (h : q.Ordered) (htarget : q.committed ≤ target)
    (hi : (q.commit target).pending i ≠ none) : target < i := by
  have hlt := (h.commit htarget).lt_pending i hi
  rwa [commit_applied (h.applied_le.trans htarget)] at hlt

end Ordered

end ApplyQueue
