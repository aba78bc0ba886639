import Anraft.Base.Word
import Anraft.Unstable

/-!
# A batch put over the unstable entries

`TruncateAndAppend` has three cases. The first two, a batch right after the
entries and a batch that starts at or before the offset, do what the name says.
The third should keep the entries below the batch and put the batch after them;
it cuts the vector at absolute log indexes and forgets the batch.
-/

namespace Anraft

open IteratorRange Segment

namespace Unstable

variable {u u' : Unstable} {first : LogEntry} {rest : List LogEntry}

/-- `u'` is `u` with the batch in place of everything from its first index on. -/
structure OverwrittenBy (u : Unstable) (first : LogEntry) (rest : List LogEntry)
    (u' : Unstable) : Prop where
  offset_eq : u'.offset = min u.offset first.uindex
  entries_eq : u'.entries =
    u.entries.filter (fun e => e.uindex < first.uindex) ++ first :: rest
  consecutive : Consecutive u'.offset u'.entries
  maybeLastIndex_eq : ∀ last, (first :: rest).getLast? = some last →
    u'.maybeLastIndex = (last.uindex, true)

/-- The call is defined and overwrites the unstable entries with the batch. -/
def Overwrites (u : Unstable) (first : LogEntry) (rest : List LogEntry) : Prop :=
  ∃ u', u.truncateAndAppend (first :: rest) = some u' ∧ u.OverwrittenBy first rest u'

/-- The last index is the index of the last entry. -/
theorem maybeLastIndex_eq_of_getLast? (h : Consecutive u.offset u.entries) {last : LogEntry}
    (hlast : u.entries.getLast? = some last) : u.maybeLastIndex = (last.uindex, true) := by
  rw [List.getLast?_eq_getElem?] at hlast
  have hpos := (List.getElem?_eq_some_iff.mp hlast).1
  have hindex := h _ last hlast
  have htop := last.uindex.toNat_lt
  have hne : u.entries ≠ [] := List.ne_nil_of_length_pos (by omega)
  rw [maybeLastIndex, if_pos hne]
  apply Prod.ext
  · apply UInt64.toNat_inj.mp
    rw [UInt64.toNat_sub, UInt64.toNat_add, size, UInt64.toNat_ofNat', UInt64.toNat_one, hindex]
    omega
  · rfl

theorem getLast?_append_cons (v : List LogEntry) :
    (v ++ first :: rest).getLast? = (first :: rest).getLast? := by
  rw [List.getLast?_append_of_ne_nil _ (List.cons_ne_nil _ _)]

/-- The entries below a position that lies outside or right after the segment. -/
theorem filter_uindex_lt (h : Consecutive u.offset u.entries) (i : UInt64) :
    u.entries.filter (fun e => e.uindex < i) = u.entries.take (i.toNat - u.offset.toNat) :=
  (consecutive_iff_numbered.mp h).filter_lt i.toNat

/-- A batch right after the entries. -/
theorem overwrites_of_next (h : Consecutive u.offset u.entries)
    (hb : Consecutive first.uindex (first :: rest))
    (hnext : first.uindex.toNat = u.offset.toNat + u.entries.length) :
    u.Overwrites first rest := by
  have htop := first.uindex.toNat_lt
  have hsize := toNat_size u.entries (by omega)
  have hafter : first.uindex = u.offset + size u.entries := by
    apply UInt64.toNat_inj.mp
    rw [UInt64.toNat_add, hsize]
    omega
  have hcons : Consecutive u.offset (u.entries ++ first :: rest) := by
    apply Numbered.append (consecutive_iff_numbered.mp h)
    rw [← hnext]
    exact hb
  refine ⟨{ u with entries := u.entries ++ first :: rest }, ?_, ?_, ?_, hcons, ?_⟩
  · simp only [truncateAndAppend, if_pos hafter]
  · have hle : u.offset ≤ first.uindex := by
      rw [UInt64.le_iff_toNat_le]
      omega
    exact (min_eq_left hle).symm
  · rw [filter_uindex_lt h, hnext, Nat.add_sub_cancel_left, List.take_length]
  · intro last hlast
    exact maybeLastIndex_eq_of_getLast? hcons ((getLast?_append_cons _).trans hlast)

/-- A batch that replaces the unstable entries. -/
theorem overwrites_of_le (h : Consecutive u.offset u.entries)
    (hb : Consecutive first.uindex (first :: rest)) (hle : first.uindex ≤ u.offset)
    (hne : first.uindex ≠ u.offset + size u.entries) : u.Overwrites first rest := by
  refine ⟨{ offset := first.uindex, entries := first :: rest }, ?_, ?_, ?_, hb, ?_⟩
  · simp only [truncateAndAppend, if_neg hne, if_pos hle]
  · exact (min_eq_right hle).symm
  · rw [filter_uindex_lt h, Nat.sub_eq_zero_of_le (UInt64.le_iff_toNat_le.mp hle), List.take_zero]
    rfl
  · intro last hlast
    exact maybeLastIndex_eq_of_getLast? hb hlast

/-- In the third case the batch is lost: what is left ends before it. -/
theorem not_overwrites_of_gt (h : Consecutive u.offset u.entries)
    (hgt : u.offset < first.uindex) (hne : first.uindex ≠ u.offset + size u.entries)
    (hle : first.uindex.toNat ≤ u.offset.toNat + u.entries.length) :
    ¬ u.Overwrites first rest := by
  have hgt' : u.offset.toNat < first.uindex.toNat := hgt
  rintro ⟨u', heq, hover⟩
  simp only [truncateAndAppend, if_neg hne, if_neg (not_le.mpr hgt)] at heq
  rw [Option.map_eq_some_iff] at heq
  obtain ⟨temp, htemp, rfl⟩ := heq
  have hlen := length_of_range?_eq_some htemp
  have hents := congrArg List.length hover.entries_eq
  rw [filter_uindex_lt h, List.length_append, List.length_take, List.length_cons] at hents
  dsimp only at hents
  omega

/-- When `offset_ + size()` wraps to zero, a batch at index zero goes behind the
entries it should replace. -/
theorem not_overwrites_of_wrap (h : Consecutive u.offset u.entries)
    (hwrap : first.uindex = u.offset + size u.entries)
    (hne : first.uindex.toNat ≠ u.offset.toNat + u.entries.length) :
    ¬ u.Overwrites first rest := by
  have hend := h.add_length_le
  have hzero := congrArg UInt64.toNat hwrap
  rw [UInt64.toNat_add, size, UInt64.toNat_ofNat'] at hzero
  rintro ⟨u', heq, hover⟩
  simp only [truncateAndAppend, if_pos hwrap] at heq
  obtain rfl := Option.some.inj heq
  have hents := congrArg List.length hover.entries_eq
  rw [filter_uindex_lt h, List.length_append, List.length_append, List.length_take] at hents
  have hoffset := u.offset.toNat_lt
  omega

/-- **When `TruncateAndAppend` keeps the prefix and takes the batch**: a batch that
continues the entries, or one that starts at or before the offset. (The sum
`offset_ + size()` of the first test wraps when the entries end at the last index
there is; a batch at index zero is then taken for their continuation.) -/
theorem truncateAndAppend_overwrites_iff (h : Consecutive u.offset u.entries)
    (hb : Consecutive first.uindex (first :: rest))
    (hle : first.uindex.toNat ≤ u.offset.toNat + u.entries.length) :
    u.Overwrites first rest ↔
      first.uindex.toNat = u.offset.toNat + u.entries.length ∨
        (first.uindex ≤ u.offset ∧ first.uindex ≠ u.offset + size u.entries) := by
  constructor
  · intro hover
    by_cases hnext : first.uindex.toNat = u.offset.toNat + u.entries.length
    · exact .inl hnext
    right
    by_cases hwrap : first.uindex = u.offset + size u.entries
    · exact absurd hover (not_overwrites_of_wrap h hwrap hnext)
    · refine ⟨le_of_not_gt fun hgt => ?_, hwrap⟩
      exact not_overwrites_of_gt h hgt hwrap hle hover
  · rintro (hnext | ⟨hbefore, hne⟩)
    · exact overwrites_of_next h hb hnext
    · exact overwrites_of_le h hb hbefore hne

/-- Entries 1, 2 and 3, none of them in storage. -/
def threeUnstable : Unstable where
  entries := [{ index := 1, term := 1 }, { index := 2, term := 1 }, { index := 3, term := 1 }]
  offset := 1

theorem threeUnstable_consecutive : Consecutive threeUnstable.offset threeUnstable.entries :=
  Numbered.append (consecutive_singleton { index := 1, term := 1 })
    (Numbered.append (consecutive_singleton { index := 2, term := 1 })
      (consecutive_singleton { index := 3, term := 1 }))

theorem truncateAndAppend_overwrites_threeUnstable :
    threeUnstable.Overwrites { index := 1, term := 2 } [{ index := 2, term := 2 }] :=
  (truncateAndAppend_overwrites_iff threeUnstable_consecutive
    (Numbered.append (consecutive_singleton { index := 1, term := 2 })
      (consecutive_singleton { index := 2, term := 2 })) (by decide)).mpr
    (.inr ⟨by decide, by decide⟩)

/-- A new entry 2 is lost, and the old one ends up in the place of entry 1. -/
theorem not_truncateAndAppend_overwrites :
    Consecutive threeUnstable.offset threeUnstable.entries ∧
      Consecutive 2 [{ index := 2, term := 2 }] ∧
      threeUnstable.truncateAndAppend [{ index := 2, term := 2 }] =
        some { entries := [{ index := 2, term := 1 }], offset := 1 } ∧
      ¬ threeUnstable.Overwrites { index := 2, term := 2 } [] := by
  have hcut : threeUnstable.truncateAndAppend [{ index := 2, term := 2 }] =
      some { entries := [{ index := 2, term := 1 }], offset := 1 } := by decide
  refine ⟨threeUnstable_consecutive, consecutive_singleton { index := 2, term := 2 }, hcut, ?_⟩
  rintro ⟨u', heq, hover⟩
  cases hcut.symm.trans heq
  have hents := hover.entries_eq
  revert hents
  decide

end Unstable

end Anraft
