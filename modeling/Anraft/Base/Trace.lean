import Mathlib

/-!
# Distances in a trace

A trace is a list of events, the oldest first. Some events start a period, some end it,
and some are counted. `Spaced` bounds from below what is counted between a start and
the next end; `Owes` is what a trace that still grows has to keep for that.
-/

namespace Trace

variable {α : Type*} {start stop counted : α → Bool} {n : ℕ} {m m' : ℤ} {h es : List α} {x : α}

/-- Between every start and the first stop behind it at least `n` events are counted. -/
def Spaced (start stop counted : α → Bool) (n : ℕ) (h : List α) : Prop :=
  ∀ pre a mid b post, h = pre ++ a :: (mid ++ b :: post) → start a = true → stop b = true →
    (∀ x ∈ mid, stop x = false) → n ≤ mid.countP counted

/-- A start with no stop behind it lacks at most `m` counted events. -/
def Owes (start stop counted : α → Bool) (n : ℕ) (m : ℤ) (h : List α) : Prop :=
  ∀ pre a mid, h = pre ++ a :: mid → start a = true → (∀ x ∈ mid, stop x = false) →
    (n : ℤ) ≤ mid.countP counted + m

/-- An event of a longer trace is the new one, or was there. -/
theorem append_singleton_eq_append_cons {pre mid : List α} {a : α}
    (heq : h ++ [x] = pre ++ a :: mid) :
    (mid = [] ∧ a = x ∧ h = pre) ∨ ∃ mid', mid = mid' ++ [x] ∧ h = pre ++ a :: mid' := by
  rcases List.eq_nil_or_concat' mid with rfl | ⟨mid', y, rfl⟩
  · obtain ⟨hh, hx⟩ := List.append_inj' heq rfl
    exact .inl ⟨rfl, (List.singleton_inj.mp hx).symm, hh⟩
  · rw [← List.cons_append, ← List.append_assoc] at heq
    obtain ⟨hh, hx⟩ := List.append_inj' heq rfl
    obtain rfl := List.singleton_inj.mp hx
    exact .inr ⟨mid', rfl, hh⟩

/-! ## What is owed -/

/-- Whatever is behind a start, no more than `n` is lacking. -/
theorem owes_of_le (hle : (n : ℤ) ≤ m) : Owes start stop counted n m h := by
  intro pre a mid _ _ _
  exact hle.trans (le_add_of_nonneg_left (Nat.cast_nonneg _))

theorem Owes.mono (hle : m ≤ m') (ho : Owes start stop counted n m h) :
    Owes start stop counted n m' h := by
  intro pre a mid heq ha hmid
  exact (ho pre a mid heq ha hmid).trans (add_le_add_right hle _)

/-- **One more event.** A start owes everything, a stop settles the debt, and a counted
event pays one. -/
theorem Owes.snoc (ho : Owes start stop counted n m h)
    (hstart : start x = true → (n : ℤ) ≤ m')
    (hrest : stop x = false → m ≤ (if counted x then 1 else 0) + m') :
    Owes start stop counted n m' (h ++ [x]) := by
  intro pre a mid heq ha hmid
  rcases append_singleton_eq_append_cons heq with ⟨rfl, rfl, -⟩ | ⟨mid', rfl, hh⟩
  · rw [List.countP_nil, Nat.cast_zero, zero_add]
    exact hstart ha
  · have hold := ho pre a mid' hh ha fun y hy => hmid y (List.mem_append_left _ hy)
    have hstep := hrest (hmid x (List.mem_append_right _ (List.mem_singleton_self x)))
    have hcount : ((mid' ++ [x]).countP counted : ℤ) =
        mid'.countP counted + if counted x then 1 else 0 := by
      rw [List.countP_append, List.countP_singleton, Nat.cast_add, Nat.cast_ite, Nat.cast_one,
        Nat.cast_zero]
    rw [hcount, add_assoc]
    exact hold.trans (add_le_add_right hstep _)

/-- Events that neither start nor stop anything. -/
theorem Owes.append (ho : Owes start stop counted n m h)
    (hes : ∀ x ∈ es, start x = false) : Owes start stop counted n m (h ++ es) := by
  induction es generalizing h with
  | nil => rwa [List.append_nil]
  | cons x es ih =>
      have hx : start x = false := hes x List.mem_cons_self
      have hone : Owes start stop counted n m (h ++ [x]) := by
        apply ho.snoc
        · rw [hx]
          exact nofun
        · intro _
          split
          · exact le_add_of_nonneg_left zero_le_one
          · exact (zero_add m).ge
      rw [List.append_cons]
      exact ih hone fun y hy => hes y (List.mem_cons_of_mem x hy)

/-! ## What has been kept -/

theorem spaced_nil : Spaced start stop counted n [] := by
  intro pre a mid b post heq
  simp at heq

/-- A stop is allowed where nothing is owed. -/
theorem Spaced.snoc (hs : Spaced start stop counted n h)
    (ho : stop x = true → Owes start stop counted n 0 h) :
    Spaced start stop counted n (h ++ [x]) := by
  intro pre a mid b post heq ha hb hmid
  rw [← List.cons_append, ← List.append_assoc] at heq
  rcases append_singleton_eq_append_cons heq with ⟨-, rfl, hh⟩ | ⟨post', -, hh⟩
  · have hpaid := ho hb pre a mid hh ha hmid
    rwa [add_zero, Nat.cast_le] at hpaid
  · rw [List.append_assoc, List.cons_append] at hh
    exact hs pre a mid b post' hh ha hb hmid

theorem Spaced.append (hs : Spaced start stop counted n h) (hes : ∀ x ∈ es, stop x = false) :
    Spaced start stop counted n (h ++ es) := by
  induction es generalizing h with
  | nil => rwa [List.append_nil]
  | cons x es ih =>
      have hx : stop x = false := hes x List.mem_cons_self
      have hone : Spaced start stop counted n (h ++ [x]) := by
        apply hs.snoc
        rw [hx]
        exact nofun
      rw [List.append_cons]
      exact ih hone fun y hy => hes y (List.mem_cons_of_mem x hy)

end Trace
