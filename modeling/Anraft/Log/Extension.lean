import Anraft.LogView

/-!
# A log that grows at its end

Entries put behind the last one change nothing that could be read before. This is the
case of `Append` a leader relies on: whatever earlier batches, truncations and
compactions have left, its new entries start right after the last index.
-/

namespace Anraft

open IteratorRange Segment

namespace RaftLog

variable {l : RaftLog} {new : List LogEntry} {lo hi i maxSize : UInt64} {out : List LogEntry}

/-- `entries[i]` has index `offset + i`, and without entries the offset follows the last
index of storage. -/
structure Extendable (l : RaftLog) : Prop where
  consecutive : Consecutive l.unstable.offset l.unstable.entries
  offset_eq : l.unstable.entries = [] → l.unstable.offset = l.storage.lastIndex.1 + 1

theorem Extendable.of_sameEntries {l' : RaftLog} (h : l.Extendable) (hsame : SameEntries l l') :
    l'.Extendable where
  consecutive := by
    rw [hsame.unstable]
    exact h.consecutive
  offset_eq := by
    rw [hsame.unstable, hsame.storage]
    exact h.offset_eq

/-- The log with `new` behind its entries. -/
def extend (l : RaftLog) (new : List LogEntry) : RaftLog :=
  { l with unstable := { l.unstable with entries := l.unstable.entries ++ new } }

theorem extend_nil (l : RaftLog) : l.extend [] = l := by
  unfold extend
  rw [List.append_nil]

/-- The position after the last index is the end of the unstable vector. -/
theorem Extendable.lastIndex_add_one (h : l.Extendable) :
    l.lastIndex + 1 = l.unstable.offset + size l.unstable.entries := by
  by_cases hnil : l.unstable.entries = []
  · rw [lastIndex_of_nil hnil, h.offset_eq hnil, hnil]
    exact (UInt64.add_zero _).symm
  · rw [lastIndex_of_ne_nil hnil, sub_add_cancel]

theorem Extendable.toNat_end (h : l.Extendable) (hlt : l.lastIndex.toNat + 1 < 2 ^ 64) :
    l.unstable.offset.toNat + l.unstable.entries.length = l.lastIndex.toNat + 1 := by
  have hend := h.consecutive.add_length_le
  have hoffset := l.unstable.offset.toNat_lt
  have hlast := congrArg UInt64.toNat h.lastIndex_add_one
  rw [UInt64.toNat_add_one_of_lt hlt, UInt64.toNat_add, size, UInt64.toNat_ofNat',
    Nat.add_mod_mod] at hlast
  rcases hend.lt_or_eq with hlt | heq
  · rw [hlast, Nat.mod_eq_of_lt hlt]
  · rw [heq, Nat.mod_self] at hlast
    cases hlast

/-! ## What `Append` does there -/

/-- The batch starts behind the last index. -/
def StartsAfter (l : RaftLog) (new : List LogEntry) : Prop := Consecutive (l.lastIndex + 1) new

theorem append_eq_extend (h : l.Extendable) (hnew : l.StartsAfter new) :
    l.append new = some ((l.extend new).lastIndex, l.extend new) := by
  cases new with
  | nil =>
      rw [extend_nil]
      rfl
  | cons first rest =>
      have hfirst : first.uindex = l.unstable.offset + size l.unstable.entries := by
        rw [← h.lastIndex_add_one]
        exact UInt64.toNat_inj.mp (hnew 0 first rfl)
      unfold append Unstable.truncateAndAppend
      dsimp only
      rw [if_pos hfirst]
      rfl

theorem extend_lastIndex (h : l.Extendable) : (l.extend new).lastIndex = l.lastIndex + size new := by
  by_cases hnil : l.unstable.entries ++ new = []
  · obtain ⟨-, rfl⟩ := List.append_eq_nil_iff.mp hnil
    rw [extend_nil]
    exact (UInt64.add_zero _).symm
  · have hsize : size (l.unstable.entries ++ new) = size l.unstable.entries + size new := by
      rw [size, List.length_append, UInt64.ofNat_add]
      rfl
    rw [lastIndex_of_ne_nil (l := l.extend new) hnil]
    show l.unstable.offset + size (l.unstable.entries ++ new) - 1 = _
    rw [hsize, ← add_assoc, ← h.lastIndex_add_one]
    grind

theorem extend_extendable (h : l.Extendable) (hlt : l.lastIndex.toNat + 1 < 2 ^ 64)
    (hnew : l.StartsAfter new) : (l.extend new).Extendable where
  consecutive := by
    apply Numbered.append (consecutive_iff_numbered.mp h.consecutive)
    rw [h.toNat_end hlt, ← UInt64.toNat_add_one_of_lt hlt]
    exact hnew
  offset_eq hnil := h.offset_eq (List.append_eq_nil_iff.mp hnil).1

/-! ## What can be read there -/

/-- The new entries, each at its place. -/
theorem extend_entryAt_new (h : l.Extendable)
    (hlt : l.lastIndex.toNat + 1 + new.length < 2 ^ 64) {k : ℕ} {e : LogEntry}
    (hk : new[k]? = some e) :
    (l.extend new).unstable.entryAt (l.lastIndex + 1 + UInt64.ofNat k) = some e := by
  have hlen : k < new.length := (List.getElem?_eq_some_iff.mp hk).1
  have hend := h.toNat_end (by omega)
  have hplace : (l.lastIndex + 1 + UInt64.ofNat k).toNat =
      l.unstable.offset.toNat + (l.unstable.entries.length + k) := by
    rw [UInt64.toNat_add, UInt64.toNat_add_one_of_lt (by omega), UInt64.toNat_ofNat']
    omega
  have hle : l.unstable.offset ≤ l.lastIndex + 1 + UInt64.ofNat k := by
    rw [UInt64.le_iff_toNat_le, hplace]
    exact Nat.le_add_right _ _
  unfold Unstable.entryAt
  show (if l.unstable.offset ≤ _ then (l.unstable.entries ++ new)[(_ - l.unstable.offset).toNat]?
    else none) = _
  rw [if_pos hle, UInt64.toNat_sub_of_le _ _ hle, hplace, Nat.add_sub_cancel_left,
    List.getElem?_append_right (Nat.le_add_right _ _), Nat.add_sub_cancel_left, hk]

/-- The earlier ones, where they were. -/
theorem extend_entryAt_of_le (h : l.Extendable) (hlt : l.lastIndex.toNat + 1 < 2 ^ 64)
    (hi : i ≤ l.lastIndex) :
    (l.extend new).unstable.entryAt i = l.unstable.entryAt i := by
  have hend := h.toNat_end hlt
  have hi' : i.toNat ≤ l.lastIndex.toNat := hi
  unfold Unstable.entryAt
  show (if l.unstable.offset ≤ i then (l.unstable.entries ++ new)[(i - l.unstable.offset).toNat]?
    else none) = _
  by_cases hle : l.unstable.offset ≤ i
  · have hle' : l.unstable.offset.toNat ≤ i.toNat := hle
    rw [if_pos hle, if_pos hle, UInt64.toNat_sub_of_le _ _ hle, List.getElem?_append_left (by omega)]
  · rw [if_neg hle, if_neg hle]

/-- A range inside a vector is the same range of a longer one. -/
theorem range?_append {v w : List LogEntry} {first last : ℤ} (hlast : last ≤ v.length) :
    range? (v ++ w) first last = range? v first last := by
  unfold range?
  by_cases h : 0 ≤ first ∧ first ≤ last
  · rw [if_pos ⟨h.1, h.2, by rw [List.length_append]; omega⟩, if_pos ⟨h.1, h.2, hlast⟩,
      List.drop_append_of_le_length (by omega), List.take_append_of_le_length]
    rw [List.length_drop]
    omega
  · rw [if_neg fun hin => h ⟨hin.1, hin.2.1⟩, if_neg fun hin => h ⟨hin.1, hin.2.1⟩]

/-- **Reads inside the old bounds** do not see the new entries. -/
theorem extend_slice (h : l.Extendable) (hlt : l.lastIndex.toNat + 1 + new.length < 2 ^ 64)
    (hbounds : l.mustCheckOutOfBounds lo hi = .errNone) :
    (l.extend new).slice lo hi maxSize out = l.slice lo hi maxSize out := by
  have hend := h.toNat_end (by omega)
  obtain ⟨hle, hlo, hhi⟩ := mustCheckOutOfBounds_eq_errNone_iff.mp hbounds
  have hsucc := UInt64.toNat_add_one_of_lt (a := l.lastIndex) (by omega)
  have hhi' : hi.toNat ≤ l.lastIndex.toNat + 1 := by
    rw [← hsucc]
    exact hhi
  have hsize : (size new).toNat = new.length := toNat_size new (by omega)
  have hgrown : l.lastIndex + 1 ≤ (l.extend new).lastIndex + 1 := by
    rw [extend_lastIndex h, UInt64.le_iff_toNat_le, hsucc, UInt64.toNat_add, UInt64.toNat_add,
      hsize, UInt64.toNat_one]
    omega
  have hbounds' : (l.extend new).mustCheckOutOfBounds lo hi = .errNone :=
    mustCheckOutOfBounds_eq_errNone_iff.mpr ⟨hle, hlo, hhi.trans hgrown⟩
  rcases hle.eq_or_lt with rfl | hlt
  · simp [slice, hbounds, hbounds']
  · have hunstable : (l.extend new).unstable.slice (max lo l.unstable.offset) hi [] =
        l.unstable.slice (max lo l.unstable.offset) hi [] := by
      have hin : (hi.toNat : ℤ) - l.unstable.offset.toNat ≤ l.unstable.entries.length := by omega
      exact congrArg (Option.map (· ++ [])) (range?_append hin)
    rw [slice_of_inBounds hbounds hlt.ne, slice_of_inBounds hbounds' hlt.ne]
    show (l.storedPart lo hi maxSize).bind (fun r =>
      if r.2 = .errNone then
        if l.unstable.offset < hi then
          ((l.extend new).unstable.slice (max lo l.unstable.offset) hi []).map _
        else _
      else _) = _
    rw [hunstable]

end RaftLog

end Anraft
