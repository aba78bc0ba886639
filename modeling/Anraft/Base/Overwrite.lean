import Mathlib

/-!
# Overwriting a sequence

A sequence is written in batches. A batch that starts at a position replaces everything
from there on, so a position shows what the last batch that starts at or below it says,
and a batch that was too short to reach it has cut it off.
-/

namespace Overwrite

variable {β : Type*} {f : ℕ → Option β} {p i : ℕ} {vs : List β}

/-- The values `vs` in place of everything from position `p` on. -/
def put (f : ℕ → Option β) (p : ℕ) (vs : List β) (i : ℕ) : Option β :=
  if i < p then f i else vs[i - p]?

/-- The sequence after batches, each with the position of its first value. -/
def putAll (f : ℕ → Option β) (batches : List (ℕ × List β)) : ℕ → Option β :=
  batches.foldl (fun g b => put g b.1 b.2) f

/-- What the last batch that starts at or below the position says about it. -/
def lastWritten (f : ℕ → Option β) (batches : List (ℕ × List β)) (i : ℕ) : Option β :=
  match batches.reverse.find? fun b => b.1 ≤ i with
  | some b => b.2[i - b.1]?
  | none => f i

/-- The position behind the last value, when it was `next` before. -/
def nextAfter (next : ℕ) (batches : List (ℕ × List β)) : ℕ :=
  match batches.getLast? with
  | some b => b.1 + b.2.length
  | none => next

theorem putAll_append (f : ℕ → Option β) (bs bs' : List (ℕ × List β)) :
    putAll f (bs ++ bs') = putAll (putAll f bs) bs' := List.foldl_append

theorem lastWritten_snoc (f : ℕ → Option β) (batches : List (ℕ × List β)) (b : ℕ × List β)
    (i : ℕ) :
    lastWritten f (batches ++ [b]) i = if b.1 ≤ i then b.2[i - b.1]? else lastWritten f batches i := by
  unfold lastWritten
  rw [List.reverse_append, List.reverse_singleton, List.singleton_append]
  by_cases h : b.1 ≤ i
  · simp [h]
  · simp [h]

/-- **The last batch decides.** -/
theorem putAll_eq_lastWritten (f : ℕ → Option β) (batches : List (ℕ × List β)) :
    putAll f batches = lastWritten f batches := by
  induction batches using List.reverseRecOn with
  | nil => rfl
  | append_singleton batches b ih =>
      ext1 i
      rw [putAll_append, ih, lastWritten_snoc]
      show put (lastWritten f batches) b.1 b.2 i = _
      unfold put
      split
      · next h => rw [if_neg h.not_ge]
      · next h => rw [if_pos (not_lt.mp h)]

@[simp] theorem nextAfter_nil (next : ℕ) : nextAfter next ([] : List (ℕ × List β)) = next := rfl

theorem nextAfter_append (next : ℕ) (bs bs' : List (ℕ × List β)) :
    nextAfter next (bs ++ bs') = nextAfter (nextAfter next bs) bs' := by
  unfold nextAfter
  rw [List.getLast?_append]
  rcases bs'.getLast? with _ | last
  · rfl
  · rfl

end Overwrite
