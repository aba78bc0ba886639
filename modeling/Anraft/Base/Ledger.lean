import Mathlib

/-!
# Ledgers

A ledger tells a value for each position from its base on. Values are written behind the
last one and cut off at the front, and a position that has been told never changes its
value: a later ledger repeats it, or has cut it off.
-/

structure Ledger (β : Type*) where
  base : ℕ
  values : List β

namespace Ledger

variable {β : Type*}

/-- The first position that is not told yet. -/
def next (l : Ledger β) : ℕ := l.base + l.values.length

def told (l : Ledger β) (i : ℕ) : Option β := if l.base ≤ i then l.values[i - l.base]? else none

def write (l : Ledger β) (vs : List β) : Ledger β := { l with values := l.values ++ vs }

/-- The first `k` values go. -/
def cut (l : Ledger β) (k : ℕ) : Ledger β where
  base := l.base + k
  values := l.values.drop k

variable {l l' l'' : Ledger β} {S : ℕ → β → Prop}

theorem lt_next_of_told {i : ℕ} {v : β} (h : l.told i = some v) : l.base ≤ i ∧ i < l.next := by
  unfold told at h
  split at h
  · next hle =>
      have hlt := (List.getElem?_eq_some_iff.mp h).1
      exact ⟨hle, by unfold next; omega⟩
  · cases h

/-- `l'` goes on from `l`: it repeats what it has not cut off, and what is new meets `S`. -/
structure Continues (S : ℕ → β → Prop) (l l' : Ledger β) : Prop where
  base : l.base ≤ l'.base
  next : l.next ≤ l'.next
  kept : ∀ i v, l.told i = some v → l'.base ≤ i → l'.told i = some v
  source : ∀ i v, l'.told i = some v → l.told i = some v ∨ S i v

theorem Continues.refl (l : Ledger β) : Continues S l l where
  base := le_rfl
  next := le_rfl
  kept _ _ h _ := h
  source _ _ := .inl

theorem Continues.trans (h : Continues S l l') (h' : Continues S l' l'') : Continues S l l'' where
  base := h.base.trans h'.base
  next := h.next.trans h'.next
  kept i v hi hbase := h'.kept i v (h.kept i v hi (h'.base.trans hbase)) hbase
  source i v hi := by
    rcases h'.source i v hi with hold | hnew
    · exact h.source i v hold
    · exact .inr hnew

/-- What is told once is told later, or cut off. -/
theorem Continues.told_or_cut (h : Continues S l l') {i : ℕ} {v : β} (hi : l.told i = some v) :
    l'.told i = some v ∨ i < l'.base := by
  rcases le_or_gt l'.base i with hbase | hcut
  · exact .inl (h.kept i v hi hbase)
  · exact .inr hcut

theorem write_continues (l : Ledger β) {vs : List β}
    (hvs : ∀ (k : ℕ) (v : β), vs[k]? = some v → S (l.next + k) v) : Continues S l (l.write vs) where
  base := le_rfl
  next := by
    unfold next write
    rw [List.length_append, ← Nat.add_assoc]
    exact Nat.le_add_right _ _
  kept i v hi _ := by
    have hlt := (lt_next_of_told hi)
    unfold told at hi ⊢
    rw [if_pos hlt.1] at hi
    rw [write, if_pos hlt.1, List.getElem?_append_left (List.getElem?_eq_some_iff.mp hi).1, hi]
  source i v hi := by
    unfold told write at hi
    dsimp only at hi
    split at hi
    · next hle =>
        rw [List.getElem?_append] at hi
        split at hi
        · left
          unfold told
          rw [if_pos hle, hi]
        · next hge =>
            have hplace : l.next + (i - l.base - l.values.length) = i := by
              unfold next
              omega
            exact .inr (hplace ▸ hvs _ v hi)
    · cases hi

theorem told_cut (l : Ledger β) (k : ℕ) {i : ℕ} (hi : l.base + k ≤ i) :
    (l.cut k).told i = l.told i := by
  have hplace : k + (i - (l.base + k)) = i - l.base := by omega
  unfold told cut
  rw [if_pos hi, if_pos ((Nat.le_add_right _ _).trans hi), List.getElem?_drop, hplace]

theorem cut_continues (l : Ledger β) {k : ℕ} (hk : k ≤ l.values.length) :
    Continues S l (l.cut k) where
  base := Nat.le_add_right _ _
  next := by
    unfold next cut
    dsimp only
    rw [List.length_drop, Nat.add_assoc, Nat.add_sub_cancel' hk]
  kept i v hi hbase := by
    rw [told_cut l k hbase]
    exact hi
  source i v hi := by
    rw [told_cut l k (lt_next_of_told hi).1] at hi
    exact .inl hi

end Ledger
