import Anraft.Base.Word
import Anraft.Storage

/-!
# Reading a range from storage

`Entries` should translate a log index to a position of the vector by taking off
the index of the dummy. The source copies from the position that has the number
of the dummy's index instead, so the answer is right only where the two meet.
-/

namespace Anraft

open IteratorRange Segment

namespace MemoryStorage

variable {ms : MemoryStorage} {lo hi maxSize : UInt64}

/-- `(out, err)` is the right answer to a read of `[lo, hi)`. -/
structure RangeAnswer (ms : MemoryStorage) (lo hi : UInt64) (out : List LogEntry)
    (err : RaftError) : Prop where
  errNone_iff : err = .errNone ↔
    ms.firstIndex.1.toNat ≤ lo.toNat ∧ hi.toNat ≤ ms.lastIndex.1.toNat + 1
  length_eq : err = .errNone → out.length = hi.toNat - lo.toNat
  index_eq : err = .errNone → Consecutive lo out
  term_eq : err = .errNone → ∀ (k : ℕ) (e : LogEntry), out[k]? = some e →
    ms.term (lo + UInt64.ofNat k) = some (e.uterm, .errNone)
  empty : err ≠ .errNone → out = []

/-- The call is defined and gives the right answer. -/
def ReadsRange (ms : MemoryStorage) (lo hi maxSize : UInt64) : Prop :=
  ∃ out err, ms.entries lo hi maxSize = some (out, err) ∧ ms.RangeAnswer lo hi out err

/-- The range is outside the log; or it is empty and the vector is not shorter than
the dummy's index; or it starts at twice the dummy's index. -/
def RangeInPlace (ms : MemoryStorage) (lo hi : UInt64) : Prop :=
  lo.toNat < ms.firstIndex.1.toNat ∨ ms.lastIndex.1.toNat + 1 < hi.toNat ∨
    (lo = hi ∧ ms.dummy.uindex.toNat ≤ ms.entries_.length) ∨
    lo.toNat = 2 * ms.dummy.uindex.toNat

/-- Outside the bounds the answer is an error and no entry. -/
theorem readsRange_of_outside (h : ms.WellFormed) (hle : lo ≤ hi)
    (hout : lo.toNat ≤ ms.dummy.uindex.toNat ∨
      ms.dummy.uindex.toNat + ms.entries_.length < hi.toNat) :
    ms.ReadsRange lo hi maxSize := by
  have hread : ms.entries lo hi maxSize = some ([], .errCompacted) := by
    rw [h.entries_eq hle]
    rcases hout with hlo | hhi
    · rw [if_pos hlo]
    · rw [if_pos hhi, ite_self]
  refine ⟨[], .errCompacted, hread, ?_, nofun, nofun, nofun, fun _ => rfl⟩
  apply iff_of_false nofun
  rw [h.toNat_firstIndex, h.lastIndex_add_one]
  rintro ⟨hlo, hhi⟩
  rcases hout with hbelow | habove
  · exact absurd hlo hbelow.not_gt
  · exact absurd hhi habove.not_ge

/-- The elements that are copied: as many as asked for, from the position that has the
number of the dummy's index. -/
def copied (ms : MemoryStorage) (lo hi : UInt64) : List LogEntry :=
  (ms.entries_.drop ms.dummy.uindex.toNat).take (hi.toNat - lo.toNat)

theorem copied_getElem?_eq_some {k : ℕ} {e : LogEntry} (he : (ms.copied lo hi)[k]? = some e) :
    k < hi.toNat - lo.toNat ∧ ms.entries_[ms.dummy.uindex.toNat + k]? = some e := by
  rw [copied, List.getElem?_take] at he
  split at he
  · next hk => exact ⟨hk, List.getElem?_drop ▸ he⟩
  · cases he

/-- They are the ones asked for when the range starts at twice the dummy's index. -/
theorem rangeAnswer_of_start (h : ms.WellFormed)
    (hlo : ms.dummy.uindex.toNat < lo.toNat)
    (hhi : hi.toNat ≤ ms.dummy.uindex.toNat + ms.entries_.length)
    (hfits : ms.dummy.uindex.toNat + (hi.toNat - lo.toNat) ≤ ms.entries_.length)
    (hstart : lo.toNat < hi.toNat → lo.toNat = 2 * ms.dummy.uindex.toNat) :
    ms.RangeAnswer lo hi (ms.copied lo hi) .errNone := by
  have hindex : ∀ (k : ℕ) (e : LogEntry), (ms.copied lo hi)[k]? = some e →
      lo.toNat = ms.dummy.uindex.toNat + ms.dummy.uindex.toNat := by
    intro k e he
    have hk := (copied_getElem?_eq_some he).1
    rw [hstart (Nat.lt_of_sub_pos (Nat.zero_lt_of_lt hk)), Nat.two_mul]
  refine ⟨iff_of_true rfl ?_, fun _ => ?_, fun _ k e he => ?_, fun _ k e he => ?_,
    fun hne => absurd rfl hne⟩
  · rw [h.toNat_firstIndex, h.lastIndex_add_one]
    exact ⟨hlo, hhi⟩
  · rw [copied, List.length_take, List.length_drop]
    exact min_eq_left (Nat.le_sub_of_add_le' hfits)
  · rw [h.consecutive _ e (copied_getElem?_eq_some he).2, hindex k e he, Nat.add_assoc]
  · obtain ⟨hk, hentry⟩ := copied_getElem?_eq_some he
    have hin := (List.getElem?_eq_some_iff.mp hentry).1
    have hb := h.bounded
    have hstart := hindex k e he
    have hposition : (lo + UInt64.ofNat k).toNat =
        ms.dummy.uindex.toNat + (ms.dummy.uindex.toNat + k) := by
      rw [UInt64.toNat_add, UInt64.toNat_ofNat']
      omega
    rw [h.term_eq, hposition, if_neg (Nat.le_add_right _ _).not_gt,
      if_neg (Nat.add_lt_add_left hin _).not_ge, Nat.add_sub_cancel_left, hentry]
    rfl

/-- The first element that is copied has twice the dummy's index. -/
theorem start_of_rangeAnswer (h : ms.WellFormed) (hlt : lo.toNat < hi.toNat)
    (hans : ms.RangeAnswer lo hi (ms.copied lo hi) .errNone) :
    lo.toNat = 2 * ms.dummy.uindex.toNat := by
  have hcount := Nat.sub_pos_of_lt hlt
  obtain ⟨e, he⟩ : ∃ e, (ms.copied lo hi)[0]? = some e :=
    ⟨_, List.getElem?_eq_getElem ((hans.length_eq rfl).symm ▸ hcount)⟩
  rw [← Nat.add_zero lo.toNat, ← hans.index_eq rfl 0 e he,
    h.consecutive _ e (copied_getElem?_eq_some he).2, Nat.add_zero, Nat.two_mul]

/-- **When `Entries` returns the requested range.** The read is defined and gives
the entries `lo … hi - 1`, or an error outside the log, if and only if the wrong
translation of the indexes does not show. -/
theorem entries_readsRange_iff (h : ms.WellFormed) (hle : lo ≤ hi) :
    ms.ReadsRange lo hi maxSize ↔ ms.RangeInPlace lo hi := by
  have hle' : lo.toNat ≤ hi.toNat := hle
  rw [RangeInPlace, h.toNat_firstIndex, Nat.lt_succ_iff, h.lastIndex_add_one]
  rcases le_or_gt lo.toNat ms.dummy.uindex.toNat with hlo | hlo
  · exact iff_of_true (readsRange_of_outside h hle (.inl hlo)) (.inl hlo)
  rcases lt_or_ge (ms.dummy.uindex.toNat + ms.entries_.length) hi.toNat with hhi | hhi
  · exact iff_of_true (readsRange_of_outside h hle (.inr hhi)) (.inr (.inl hhi))
  rw [or_iff_right hlo.not_ge, or_iff_right hhi.not_gt]
  have hread := h.entries_eq hle maxSize
  rw [if_neg hlo.not_ge, if_neg hhi.not_gt] at hread
  constructor
  · rintro ⟨out, err, heq, hans⟩
    rw [hread] at heq
    split at heq
    · next hfits =>
        cases heq
        rcases hle'.eq_or_lt with hsame | hlt
        · exact .inl ⟨UInt64.toNat_inj.mp hsame, (Nat.le_add_right _ _).trans hfits⟩
        · exact .inr (start_of_rangeAnswer h hlt hans)
    · cases heq
  · intro hplace
    have hfits : ms.dummy.uindex.toNat + (hi.toNat - lo.toNat) ≤ ms.entries_.length := by
      rcases hplace with ⟨rfl, hshort⟩ | htwice
      · omega
      · omega
    rw [if_pos hfits] at hread
    refine ⟨_, _, hread, rangeAnswer_of_start h hlo hhi hfits ?_⟩
    intro hlt
    rcases hplace with ⟨rfl, -⟩ | htwice
    · exact absurd hlt (lt_irrefl _)
    · exact htwice

/-- Three entries of which the first is compacted. -/
def compactedOnce : MemoryStorage where
  entries_ := [{ index := 1, term := 1 }, { index := 2, term := 1 }, { index := 3, term := 2 }]
  nonempty := List.cons_ne_nil _ _

theorem compactedOnce_wellFormed : compactedOnce.WellFormed where
  consecutive := Numbered.append (consecutive_singleton { index := 1, term := 1 })
    (Numbered.append (consecutive_singleton { index := 2, term := 1 })
      (consecutive_singleton { index := 3, term := 2 }))
  bounded := by decide

theorem entries_readsRange_compactedOnce : compactedOnce.ReadsRange 2 4 0 :=
  (entries_readsRange_iff compactedOnce_wellFormed (by decide)).mpr
    (.inr (.inr (.inr (by decide))))

/-- Without compaction: the read of entry 1 returns the dummy. -/
theorem not_entries_readsRange :
    ∃ ms : MemoryStorage, ms.WellFormed ∧ ms.entries_ = [{}, { index := 1, term := 1 }] ∧
      ms.entries 1 2 0 = some ([{}], .errNone) ∧ ¬ ms.ReadsRange 1 2 0 := by
  refine ⟨⟨[{}, { index := 1, term := 1 }], List.cons_ne_nil _ _⟩, ⟨?_, by decide⟩, rfl, by decide,
    ?_⟩
  · exact Numbered.append (consecutive_singleton {}) (consecutive_singleton { index := 1, term := 1 })
  · rintro ⟨out, err, hread, hans⟩
    cases hread
    have hindex := hans.index_eq rfl 0 {} rfl
    revert hindex
    decide

end MemoryStorage

end Anraft
