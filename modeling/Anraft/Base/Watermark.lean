import Mathlib

/-!
# A watermark over acknowledged values

A value is raised by a sequence of acknowledgements, and a watermark follows:
it is advanced to a candidate `q` when `q` is above it and `good`. Raising
depends only on which acknowledgements occur. So does the watermark, as long as
later candidates are not smaller and goodness is not lost on the way up: of two
candidates in a row only the second one counts.
-/

namespace Watermark

variable {α : Type*} [LinearOrder α]

/-! ## Raising -/

theorem foldl_max_le_iff {l : List α} {a c : α} :
    l.foldl max a ≤ c ↔ a ≤ c ∧ ∀ x ∈ l, x ≤ c := by
  induction l generalizing a with
  | nil => simp
  | cons x xs ih =>
      rw [List.foldl_cons, ih, max_le_iff, List.forall_mem_cons, and_assoc]

/-- Order and repetition do not matter. -/
theorem foldl_max_congr {l l' : List α} (h : ∀ x, x ∈ l ↔ x ∈ l') (a : α) :
    l.foldl max a = l'.foldl max a := by
  apply eq_of_forall_ge_iff
  intro c
  rw [foldl_max_le_iff, foldl_max_le_iff]
  simp only [h]

theorem le_foldl_max (l : List α) (a : α) : a ≤ l.foldl max a :=
  (foldl_max_le_iff.mp le_rfl).1

/-! ## Advancing -/

variable (good : α → Prop) [DecidablePred good]

def advance (c q : α) : α := if c < q ∧ good q then q else c

variable {good}

theorem advance_congr {good' : α → Prop} [DecidablePred good'] (h : ∀ x, good x ↔ good' x)
    (c q : α) : advance good c q = advance good' c q := by
  unfold advance
  simp only [h]

theorem advance_of_not_good {c q : α} (h : ¬ good q) : advance good c q = c :=
  if_neg fun hq => h hq.2

theorem advance_of_good {c q : α} (h : good q) : advance good c q = max c q := by
  unfold advance
  by_cases hlt : c < q
  · rw [if_pos ⟨hlt, h⟩, max_eq_right hlt.le]
  · rw [if_neg fun hq => hlt hq.1, max_eq_left (not_lt.mp hlt)]

/-- **Only the last candidate counts.** -/
theorem advance_advance {q q' : α} (hle : q ≤ q') (hgood : good q → good q') (c : α) :
    advance good (advance good c q) q' = advance good c q' := by
  by_cases hq : good q
  · rw [advance_of_good hq, advance_of_good (hgood hq), advance_of_good (hgood hq), max_assoc,
      max_eq_right hle]
  · rw [advance_of_not_good hq]

end Watermark
